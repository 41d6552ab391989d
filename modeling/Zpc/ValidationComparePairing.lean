import Zpc.ValidationCompareEntries

/-!
# Stable ids and the fallback on fields

A record without a stable id may stand before the record that an id identifies and take its
partner. Where no record without an id shares the fields of such a pair, nothing can be taken.
-/
namespace Zpc.ValidationCompare
open GreedyMatching

variable {D : Type}

/-- No two records have the same stable id. -/
def UniqueIds (records : List (ValidationRecord D)) : Prop :=
  ((records.filter (·.hasStableId)).map (·.recordId)).Nodup

/-- A baseline record with a stable id and the current record of that id share their fields with
no record without an id on the other side. -/
def NoRival (baseline current : List (ValidationRecord D)) : Prop :=
  ∀ b ∈ baseline, ∀ c ∈ current, b.hasStableId = true → c.recordId = b.recordId →
    (∀ b' ∈ baseline, b'.hasStableId = false → b'.fields ≠ c.fields) ∧
      ∀ c' ∈ current, c'.hasStableId = false → b.fields ≠ c'.fields

theorem hasStableId_congr {r r' : ValidationRecord D} (h : r.recordId = r'.recordId) :
    r.hasStableId = r'.hasStableId := by
  rw [ValidationRecord.hasStableId, h, ValidationRecord.hasStableId]

theorem UniqueIds.eq {records : List (ValidationRecord D)} (h : UniqueIds records) {i j : ℕ} {r r' : ValidationRecord D}
    (hi : records[i]? = some r) (hj : records[j]? = some r') (hr : r.hasStableId = true)
    (hid : r'.recordId = r.recordId) : i = j := by
  have hr' : r'.hasStableId = true := (hasStableId_congr hid).trans hr
  have hapart : records.Pairwise fun a b => a.hasStableId = true → b.hasStableId = true → a.recordId ≠ b.recordId := by
    rw [UniqueIds, List.Nodup, List.pairwise_map, List.pairwise_filter] at h
    exact h
  obtain ⟨hilt, rfl⟩ := List.getElem?_eq_some_iff.mp hi
  obtain ⟨hjlt, rfl⟩ := List.getElem?_eq_some_iff.mp hj
  rcases lt_trichotomy i j with hlt | heq | hlt
  · exact absurd hid.symm (List.pairwise_iff_getElem.mp hapart i j hilt hjlt hlt hr hr')
  · exact heq
  · exact absurd hid (List.pairwise_iff_getElem.mp hapart j i hjlt hilt hlt hr' hr)

theorem UniqueIds.perm {rs rs' : List (ValidationRecord D)} (h : UniqueIds rs) (hp : rs'.Perm rs) : UniqueIds rs' :=
  ((hp.filter _).map _).nodup_iff.mpr h

theorem NoRival.perm {bs bs' cs cs' : List (ValidationRecord D)} (h : NoRival bs cs) (hb : bs'.Perm bs)
    (hc : cs'.Perm cs) : NoRival bs' cs' := by
  intro b hbm c hcm hid hsame
  obtain ⟨hbefore, hother⟩ := h b (hb.subset hbm) c (hc.subset hcm) hid hsame
  exact ⟨fun b' hb' => hbefore b' (hb.subset hb'), fun c' hc' => hother c' (hc.subset hc')⟩

variable [Zero D] [Add D] [Sub D] [LE D] [DecidableLE D] {baseline current : ValidationSuiteReport D}

/-- A record with the given id and outcome, its other fields all alike. -/
def record (recordId : String) (outcome : ValidationOutcome) : ValidationRecord ℤ :=
  ⟨recordId, "async", "latency", "cuda", "cuda_record", "gpu0", .benchmark, outcome, []⟩

end Zpc.ValidationCompare
