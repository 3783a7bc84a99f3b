import GeminiTS.Lib.FrontReader

/-!
# CompactLog — the names of data files, and the log of a replacement of files

A data file is called after its sequence number, level, merge count and extent. A file that is not
valid yet, or not any more, has `.init` behind its name.

Before files are replaced their names are written to a log, the old and the new ones, with a mark at the end.
-/

namespace GeminiTS.Immutable

open Lib List

/-- The bytes of a text of ASCII characters. -/
def ascii (s : List Char) : Bytes := s.map fun c => UInt8.ofNat c.toNat

def tsspFileSuffix : Bytes := ascii ['.', 't', 's', 's', 'p']

def tmpFileSuffix : Bytes := ascii ['.', 'i', 'n', 'i', 't']

def obsFileSuffix : Bytes := ascii ['.', 'o', 'b', 's']

/-- The `-` between the numbers. -/
def dash : UInt8 := 45

structure TSSPFileName where
  seq : UInt64
  level : UInt16
  merge : UInt16
  extent : UInt16
deriving DecidableEq

namespace TSSPFileName

def string (n : TSSPFileName) : Bytes := padHex 8 n.seq.toNat ++ [dash] ++ padHex 4 n.level.toNat ++ [dash] ++
    (padHex 4 n.merge.toNat ++ padHex 4 n.extent.toNat)

/-- The name in its directory. -/
def base (n : TSSPFileName) : Bytes := n.string ++ tsspFileSuffix

end TSSPFileName

def isTempleFile (name : Bytes) : Bool :=
  if name.length < tmpFileSuffix.length then false
  else name.drop (name.length - tmpFileSuffix.length) == tmpFileSuffix

/-- The name without `.init`. -/
def normalName (name : Bytes) : Bytes := name.take (name.length - tmpFileSuffix.length)

def tmpName (name : Bytes) : Bytes := name ++ tmpFileSuffix

/-- `filepath.Ext` of a name without directories: what starts at the last dot. -/
def ext (name : Bytes) : Bytes :=
  let tail := (name.reverse.takeWhile (· ≠ 46)).reverse
  if tail.length < name.length then 46 :: tail else []

/-! ### Parsing -/

/-- The rest behind `n` lower-case digits. -/
def hexRun : ℕ → Bytes → Option Bytes
  | 0, bs => some bs
  | n + 1, b :: bs => if isHex b then hexRun n bs else none
  | _ + 1, [] => none

/-- The rest behind a given text. -/
def literal (text bs : Bytes) : Option Bytes :=
  if text <+: bs then some (bs.drop text.length) else none

/-- The rest behind any character but a line feed. -/
def anyChar : Bytes → Option Bytes
  | b :: bs => if b ≠ 10 then some bs else none
  | [] => none

/-- The regular expression of file names; what stands behind `tssp` is free. -/
def validFileName (name : Bytes) : Bool := (List.range' 8 9).any fun n =>
    ((((((hexRun n name).bind (literal [dash])).bind (hexRun 4)).bind (literal [dash])).bind (hexRun 8)).bind
      anyChar).bind (literal (ascii ['t', 's', 's', 'p'])) |>.isSome

def getRemoteSuffix (name : Bytes) : Bytes := if ext name = obsFileSuffix then ext name else []

/-- `strconv.ParseUint(s, 16, 64)`. -/
def parseUint (s : Bytes) : Option ℕ :=
  if s = [] then none else (parseHex s).bind fun n => if n < 2 ^ 64 then some n else none

def parseFileName (base : Bytes) : Option TSSPFileName :=
  if validFileName base then
    let nl := base.length
    let nameStr :=
      if base.drop (nl - tmpFileSuffix.length) = tmpFileSuffix then
        base.take (nl - (tsspFileSuffix.length + (getRemoteSuffix (normalName base)).length + tmpFileSuffix.length))
      else base.take (nl - (tsspFileSuffix.length + (getRemoteSuffix base).length))
    match nameStr.splitOn dash with
    | p₀ :: p₁ :: p₂ :: rest =>
      if rest ≠ [] ∧ p₂.length ≠ 8 then none
      else do
        let seq ← parseUint p₀
        let level ← parseUint p₁
        let merge ← parseUint (p₂.take 4)
        let extent ← parseUint (p₂.drop 4)
        some ⟨UInt64.ofNat seq, UInt16.ofNat level, UInt16.ofNat merge, UInt16.ofNat extent⟩
    | _ => none
  else none

/-! ### Suffixes -/

theorem isTempleFile_tmpName (name : Bytes) : isTempleFile (tmpName name) = true := by
  rw [isTempleFile, tmpName, length_append, Nat.add_sub_cancel, drop_left]
  exact beq_self_eq_true _

theorem normalName_tmpName (name : Bytes) : normalName (tmpName name) = name := by
  rw [normalName, tmpName, length_append, Nat.add_sub_cancel, take_left]

theorem tmpName_normalName {name : Bytes} (h : isTempleFile name = true) : tmpName (normalName name) = name := by
  rw [isTempleFile] at h
  split_ifs at h with hshort
  rw [tmpName]
  conv_rhs => rw [← take_append_drop (name.length - tmpFileSuffix.length) name]
  congr 1
  rw [eq_of_beq h]

theorem tmpName_injective : Function.Injective tmpName := fun _ _ h => append_cancel_right h

theorem ext_append {name tail : Bytes} (h : (46 : UInt8) ∉ tail) : ext (name ++ 46 :: tail) = 46 :: tail := by
  have htail : ((name ++ 46 :: tail).reverse.takeWhile (· ≠ 46)).reverse = tail := by
    have hrev : (name ++ 46 :: tail).reverse = tail.reverse ++ 46 :: name.reverse := by simp
    have hall : ∀ b ∈ tail.reverse, (decide (b ≠ 46)) = true := by
      intro b hb
      rw [mem_reverse] at hb
      exact decide_eq_true fun hdot => h (hdot ▸ hb)
    rw [hrev, takeWhile_append_of_pos hall, takeWhile_cons_of_neg (by decide), append_nil, reverse_reverse]
  rw [ext, htail]
  apply if_pos
  rw [length_append, length_cons]
  omega

theorem ext_tmpName (name : Bytes) : ext (tmpName name) = tmpFileSuffix := ext_append (by decide)

theorem ext_base (n : TSSPFileName) : ext n.base = tsspFileSuffix := ext_append (by decide)

theorem not_isTempleFile_base (n : TSSPFileName) : isTempleFile n.base = false := by
  rw [← Bool.not_eq_true]
  intro h
  have htmp := ext_tmpName (normalName n.base)
  rw [tmpName_normalName h, ext_base] at htmp
  exact absurd htmp (by decide)

/-! ### The name of a file is parsed back -/

variable {ds buf : Bytes}

theorem hexRun_append (h : ds.all isHex = true) (rest : Bytes) : hexRun ds.length (ds ++ rest) = some rest := by
  induction ds with
  | nil => rfl
  | cons d ds ih =>
    rw [all_cons, Bool.and_eq_true] at h
    rw [length_cons, cons_append, hexRun, if_pos h.1]
    exact ih h.2

theorem literal_append (text rest : Bytes) : literal text (text ++ rest) = some rest := by
  rw [literal, if_pos (prefix_append text rest), drop_left]

theorem not_mem_of_all_isHex (h : ds.all isHex = true) : dash ∉ ds := by
  intro hmem
  exact absurd (all_eq_true.mp h dash hmem) (by decide)

theorem parseUint_padHex {w n : ℕ} (hw : 0 < w) (h : n < 2 ^ 64) : parseUint (padHex w n) = some n := by
  have hne : padHex w n ≠ [] := fun hnil => by
    have := length_padHex_ge w n
    rw [hnil, length_nil] at this
    omega
  rw [parseUint, if_neg hne, parseHex_padHex, Option.bind_some, if_pos h]

namespace TSSPFileName

variable (n : TSSPFileName)

/-- The last part of a name, eight digits. -/
def tail : Bytes := padHex 4 n.merge.toNat ++ padHex 4 n.extent.toNat

theorem length_uint16 (v : UInt16) : (padHex 4 v.toNat).length = 4 :=
  length_padHex (by decide) (by have := v.toNat_lt; omega)

theorem length_tail : n.tail.length = 8 := by
  rw [tail, length_append, length_uint16, length_uint16]

theorem all_isHex_tail : n.tail.all isHex = true := by
  rw [tail, all_append, all_isHex_padHex, all_isHex_padHex, Bool.and_self]

theorem validFileName_base : validFileName n.base = true := by
  have hlow := length_padHex_ge 8 n.seq.toNat
  have hhigh : (padHex 8 n.seq.toNat).length ≤ 16 :=
    length_padHex_le (by decide) (by decide) (by have := n.seq.toNat_lt; omega)
  rw [validFileName, any_eq_true]
  refine ⟨(padHex 8 n.seq.toNat).length, by rw [mem_range'_1]; omega, ?_⟩
  have hbase : n.base = padHex 8 n.seq.toNat ++ ([dash] ++ (padHex 4 n.level.toNat ++ ([dash] ++
      (n.tail ++ 46 :: (ascii ['t', 's', 's', 'p'] ++ []))))) := by
    rw [base, string, ← tail]
    simp only [append_assoc]
    rfl
  have hlevel := hexRun_append (all_isHex_padHex 4 n.level.toNat)
    ([dash] ++ (n.tail ++ 46 :: (ascii ['t', 's', 's', 'p'] ++ [])))
  have htail := hexRun_append n.all_isHex_tail (46 :: (ascii ['t', 's', 's', 'p'] ++ []))
  rw [length_uint16] at hlevel
  rw [length_tail] at htail
  rw [hbase, hexRun_append (all_isHex_padHex 8 n.seq.toNat), Option.bind_some, literal_append, Option.bind_some, hlevel,
    Option.bind_some, literal_append, Option.bind_some, htail]
  decide

theorem splitOn_string : n.string.splitOn dash = [padHex 8 n.seq.toNat, padHex 4 n.level.toNat, n.tail] := by
  have hparts : n.string = [dash].intercalate [padHex 8 n.seq.toNat, padHex 4 n.level.toNat, n.tail] := by
    rw [string, ← tail]
    simp
  rw [hparts]
  apply splitOn_intercalate
  · intro l hl
    rw [mem_cons, mem_cons, mem_singleton] at hl
    rcases hl with rfl | rfl | rfl
    · exact not_mem_of_all_isHex (all_isHex_padHex _ _)
    · exact not_mem_of_all_isHex (all_isHex_padHex _ _)
    · exact not_mem_of_all_isHex n.all_isHex_tail
  · exact cons_ne_nil _ _

/-- **The name of a file is parsed back.** -/
theorem parseFileName_base : parseFileName n.base = some n := by
  have hnot : n.base.drop (n.base.length - tmpFileSuffix.length) ≠ tmpFileSuffix := by
    intro h
    have hfalse := not_isTempleFile_base n
    rw [isTempleFile, h] at hfalse
    split_ifs at hfalse with hshort
    · rw [base, length_append] at hshort
      exact absurd hshort (by rw [show tsspFileSuffix.length = tmpFileSuffix.length from rfl]; omega)
    · exact absurd hfalse (by decide)
  have hremote : getRemoteSuffix n.base = [] := by
    rw [getRemoteSuffix, ext_base]
    exact if_neg (by decide)
  have hstring : n.base.take (n.base.length - tsspFileSuffix.length) = n.string := by
    rw [base, length_append, Nat.add_sub_cancel, take_left]
  have htake : n.tail.take 4 = padHex 4 n.merge.toNat := take_left' (length_uint16 n.merge)
  have hdrop : n.tail.drop 4 = padHex 4 n.extent.toNat := drop_left' (length_uint16 n.merge)
  have hsmall : ∀ v : UInt16, v.toNat < 2 ^ 64 := fun v => by have := v.toNat_lt; omega
  rw [parseFileName, if_pos n.validFileName_base]
  simp only [if_neg hnot, hremote, length_nil, Nat.add_zero, hstring, splitOn_string, htake, hdrop,
    parseUint_padHex (by decide : 0 < 8) n.seq.toNat_lt, parseUint_padHex (by decide : 0 < 4) (hsmall _)]
  simp

end TSSPFileName

/-! ### The log -/

/-- `compLogMagic`. -/
def compLogMagic : Bytes := ascii ['2', '0', '2', '1', 'A', '5', 'A', '5']

structure CompactedFileInfo where
  name : Bytes
  isOrder : Bool
  oldFile : List Bytes
  newFile : List Bytes
deriving DecidableEq

/-- What is missing: with the number of bytes left, and for a name the number of bytes it needs. -/
inductive UnmarshalError
  | nameLength (left : ℕ)
  | name (left need : ℕ)
  | oldFileName (left : ℕ)
  | newFileCount (left : ℕ)
  | newFileName (left : ℕ)
deriving DecidableEq

/-- A text behind its length. -/
def marshalText (text : Bytes) : Bytes := beBytes 2 text.length ++ text

namespace CompactedFileInfo

def marshal (info : CompactedFileInfo) : Bytes := marshalText info.name ++ ([if info.isOrder then 1 else 0] ++
    (beBytes 2 info.oldFile.length ++ (info.oldFile.flatMap marshalText ++
      (beBytes 2 info.newFile.length ++ info.newFile.flatMap marshalText))))

/-- The name of a file; `short` is the error if its length is not there. -/
def unmarshalFile (short : ℕ → UnmarshalError) : FrontReader UnmarshalError Bytes := do
  let l ← readUint16 short
  takeBytes l fun left => .name left l

def unmarshalFrom : FrontReader UnmarshalError CompactedFileInfo := do
  let l ← readUint16 .nameLength
  require (l + 3) fun left => .name left (l + 3)
  let name ← takeBytes l fun left => .name left (l + 3)
  let order ← takeBytes 1 fun left => .name left (l + 3)
  let oldCount ← readUint16 fun left => .name left (l + 3)
  let oldFile ← times (unmarshalFile .oldFileName) oldCount
  let newCount ← readUint16 .newFileCount
  let newFile ← times (unmarshalFile .newFileName) newCount
  pure ⟨name, order = [1], oldFile, newFile⟩

def unmarshal (src : Bytes) : Except UnmarshalError CompactedFileInfo := (unmarshalFrom src).map Prod.fst

/-- All lengths fit into two bytes. -/
structure Fits (info : CompactedFileInfo) : Prop where
  name : info.name.length < 2 ^ 16
  oldFile : info.oldFile.length < 2 ^ 16
  newFile : info.newFile.length < 2 ^ 16
  files : ∀ f ∈ info.oldFile ++ info.newFile, f.length < 2 ^ 16

/-! ### Reading back -/

theorem reads_unmarshalFile {f : Bytes} (h : f.length < 2 ^ 16) (short : ℕ → UnmarshalError) :
    Reads (unmarshalFile short) (marshalText f) f :=
  (Reads.uint16 h short).bind (Reads.takeBytes f _)

theorem reads_files {fs : List Bytes} (h : ∀ f ∈ fs, f.length < 2 ^ 16) (short : ℕ → UnmarshalError) :
    Reads (times (unmarshalFile short) fs.length) (fs.flatMap marshalText) fs :=
  Reads.times fun f hf => reads_unmarshalFile (h f hf) short

theorem order_eq (b : Bool) : decide ([if b then (1 : UInt8) else 0] = [1]) = b := by
  cases b <;> rfl

variable {info : CompactedFileInfo}

theorem reads_unmarshalFrom (h : info.Fits) : Reads unmarshalFrom info.marshal info := by
  have hold : ∀ f ∈ info.oldFile, f.length < 2 ^ 16 := fun f hf => h.files f (mem_append_left _ hf)
  have hnew : ∀ f ∈ info.newFile, f.length < 2 ^ 16 := fun f hf => h.files f (mem_append_right _ hf)
  rw [marshal, marshalText, append_assoc]
  apply (Reads.uint16 h.name _).bind
  apply Reads.require_bind
  · apply (Reads.takeBytes info.name _).bind
    apply (Reads.takeBytes [if info.isOrder then 1 else 0] _).bind
    apply (Reads.uint16 h.oldFile _).bind
    apply (reads_files hold _).bind
    apply (Reads.uint16 h.newFile _).bind
    rw [← append_nil (info.newFile.flatMap marshalText)]
    apply (reads_files hnew _).bind
    rw [order_eq]
    exact Reads.pure info
  · simp only [length_append, length_beBytes]
    omega

theorem fromFront_unmarshalFile (short : ℕ → UnmarshalError) : FromFront (unmarshalFile short) :=
  (FromFront.uint16 short).bind fun _ => FromFront.takeBytes _ _

theorem fromFront_unmarshalFrom : FromFront unmarshalFrom := by
  refine (FromFront.uint16 _).bind fun l => (FromFront.require _ _).bind fun _ => (FromFront.takeBytes _ _).bind
    fun name => (FromFront.takeBytes _ _).bind fun order => (FromFront.uint16 _).bind fun oldCount => ?_
  refine ((fromFront_unmarshalFile _).times _).bind fun oldFile => (FromFront.uint16 _).bind fun newCount => ?_
  exact ((fromFront_unmarshalFile _).times _).bind fun newFile => FromFront.pure _

theorem unmarshal_append (h : info.Fits) (t : Bytes) : unmarshal (info.marshal ++ t) = .ok info := by
  rw [unmarshal, reads_unmarshalFrom h t]
  rfl

theorem unmarshal_cut (h : info.Fits) {k : ℕ} (hk : k < info.marshal.length) :
    ∃ e, unmarshal (info.marshal.take k) = .error e := by
  have hall := reads_unmarshalFrom h []
  rw [append_nil] at hall
  obtain ⟨e, he⟩ := fromFront_unmarshalFrom.cut hall hk
  exact ⟨e, by rw [unmarshal, he]; rfl⟩

theorem marshal_suffix {fs : List Bytes} {f text : Bytes} (hnew : info.newFile = fs ++ [f])
    (htext : text <:+ f) : text <:+ info.marshal := by
  have hfiles : text <:+ info.newFile.flatMap marshalText := by
    rw [hnew, flatMap_append, flatMap_singleton]
    exact htext.trans ((suffix_append _ _).trans (suffix_append _ _))
  rw [marshal]
  refine hfiles.trans ?_
  simp only [← append_assoc]
  exact suffix_append _ _

/-- The bytes of the log file. -/
def logBytes (info : CompactedFileInfo) : Bytes := info.marshal ++ compLogMagic

end CompactedFileInfo

open CompactedFileInfo

/-! ### The log file -/

/-- Why a log is not read: it is incomplete, or its bytes do not make sense. -/
inductive LogError
  | dirty
  | unmarshal (e : UnmarshalError)
deriving DecidableEq

/-- `readCompactLogFile` on the bytes of the file. -/
def readCompactLogFile (buf : Bytes) : Except LogError CompactedFileInfo :=
  if buf.length < compLogMagic.length then .error .dirty
  else if buf.drop (buf.length - compLogMagic.length) ≠ compLogMagic then .error .dirty
  else (unmarshal buf).mapError .unmarshal

theorem readCompactLogFile_of_magic (h : compLogMagic <:+ buf) :
    readCompactLogFile buf = (unmarshal buf).mapError .unmarshal := by
  have hlen := h.length_le
  have hdrop := (suffix_iff_eq_drop.mp h).symm
  rw [readCompactLogFile, if_neg (by omega), if_neg (not_not.mpr hdrop)]

theorem readCompactLogFile_of_not_magic (h : ¬ compLogMagic <:+ buf) : readCompactLogFile buf = .error .dirty := by
  rw [readCompactLogFile]
  split_ifs with hlen hmagic
  · rfl
  · rfl
  · rw [not_not] at hmagic
    exact absurd (suffix_iff_eq_drop.mpr hmagic.symm) h

variable {info : CompactedFileInfo}

/-- **A whole log is read back.** -/
theorem readCompactLogFile_logBytes (h : info.Fits) : readCompactLogFile info.logBytes = .ok info := by
  rw [logBytes, readCompactLogFile_of_magic (suffix_append _ _), unmarshal_append h]
  rfl

/-- The end of a log with a part of the mark behind it does not end in the mark. -/
theorem not_magic_of_part {ps : Bytes} {j : ℕ} (hj : j < compLogMagic.length) :
    ¬ compLogMagic <:+ ps ++ (tsspFileSuffix ++ tmpFileSuffix) ++ compLogMagic.take j := by
  intro h
  have hpart : compLogMagic <:+ (tsspFileSuffix ++ tmpFileSuffix) ++ compLogMagic.take j := by
    rw [append_assoc] at h
    refine suffix_of_suffix_length_le h (suffix_append _ _) ?_
    rw [length_append]
    exact Nat.le_trans (by decide) (Nat.le_add_right _ _)
  revert hpart
  exact (by decide : ∀ i < compLogMagic.length,
    ¬ compLogMagic <:+ (tsspFileSuffix ++ tmpFileSuffix) ++ compLogMagic.take i) j hj

/-- **A log that is cut short**: it is dirty, or it happens to end in the mark and is not readable. -/
theorem readCompactLogFile_cut (h : info.Fits) (hend : tsspFileSuffix ++ tmpFileSuffix <:+ info.marshal) {k : ℕ}
    (hk : k < info.logBytes.length) :
    readCompactLogFile (info.logBytes.take k) = .error .dirty ∧ ¬ compLogMagic <:+ info.logBytes.take k ∨
      (∃ e, readCompactLogFile (info.logBytes.take k) = .error (.unmarshal e)) ∧
        compLogMagic <:+ info.logBytes.take k := by
  by_cases hmagic : compLogMagic <:+ info.logBytes.take k
  · right
    refine ⟨?_, hmagic⟩
    rcases lt_or_ge k info.marshal.length with hlt | hge
    · rw [readCompactLogFile_of_magic hmagic, logBytes, take_append_of_le_length (le_of_lt hlt)]
      obtain ⟨e, he⟩ := unmarshal_cut h hlt
      exact ⟨e, by rw [he]; rfl⟩
    · -- behind the names there is only a part of the mark
      obtain ⟨ps, hps⟩ := hend
      rw [logBytes, length_append] at hk
      rw [logBytes, take_append, take_of_length_le hge, ← hps] at hmagic
      exact absurd hmagic (not_magic_of_part (by rw [hps]; omega))
  · exact .inl ⟨readCompactLogFile_of_not_magic hmagic, hmagic⟩

end GeminiTS.Immutable
