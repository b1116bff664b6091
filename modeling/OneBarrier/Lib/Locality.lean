import Mathlib.Data.List.Sort
import Mathlib.Data.List.Dedup
import Mathlib.Order.BoundedOrder.Basic

/-!
# Orders that keep real time

Operations with a time of call and a time of return. An order of them keeps real time if no operation
stands before one that has returned when it is called. Then each operation has a point between its
call and its return, and the points ascend along the order; and orders with such points can be merged.
So operations on separate objects have one order that keeps real time if those on each object have.
-/

namespace RealTime

universe u v w

variable {α : Type u} {κ : Type v} {τ : Type w} [LinearOrder τ] (inv res : α → τ)

def Keeps (order : List α) : Prop :=
  order.Pairwise fun earlier later => ¬ res later < inv earlier

/-- Points between call and return that ascend. -/
structure Stamped (entries : List (τ × α)) : Prop where
  called : ∀ entry ∈ entries, inv entry.2 ≤ entry.1
  returned : ∀ entry ∈ entries, entry.1 ≤ res entry.2
  ascending : entries.Pairwise fun earlier later => earlier.1 ≤ later.1

/-- For each operation, the latest call up to it. -/
def stamp : τ → List α → List (τ × α)
  | _, [] => []
  | point, op :: order => (max point (inv op), op) :: stamp (max point (inv op)) order

variable {inv res}

theorem map_snd_stamp (point : τ) (order : List α) :
    (stamp inv point order).map Prod.snd = order := by
  induction order generalizing point with
  | nil => rfl
  | cons op order ih => rw [stamp, List.map_cons, ih]

theorem le_of_mem_stamp {point : τ} {order : List α} {entry : τ × α}
    (hentry : entry ∈ stamp inv point order) : point ≤ entry.1 := by
  induction order generalizing point with
  | nil => cases hentry
  | cons op order ih =>
      rcases List.mem_cons.mp hentry with rfl | hmem
      · exact le_max_left _ _
      · exact (le_max_left _ _).trans (ih hmem)

theorem stamped_stamp {point : τ} {order : List α} (hkeeps : Keeps inv res order)
    (hinterval : ∀ op ∈ order, inv op ≤ res op) (hpoint : ∀ op ∈ order, point ≤ res op) :
    Stamped inv res (stamp inv point order) := by
  induction order generalizing point with
  | nil => exact ⟨by simp [stamp], by simp [stamp], List.Pairwise.nil⟩
  | cons op order ih =>
      obtain ⟨hlater, horder⟩ := List.pairwise_cons.mp hkeeps
      have hnext : ∀ other ∈ order, max point (inv op) ≤ res other := by
        intro other hother
        exact max_le (hpoint other (List.mem_cons_of_mem _ hother)) (not_lt.mp (hlater other hother))
      obtain ⟨hcalled, hreturned, hascending⟩ :=
        ih horder (fun other hother => hinterval other (List.mem_cons_of_mem _ hother)) hnext
      refine ⟨?_, ?_, ?_⟩
      · intro entry hentry
        rcases List.mem_cons.mp hentry with rfl | hmem
        · exact le_max_right _ _
        · exact hcalled entry hmem
      · intro entry hentry
        rcases List.mem_cons.mp hentry with rfl | hmem
        · exact max_le (hpoint op List.mem_cons_self) (hinterval op List.mem_cons_self)
        · exact hreturned entry hmem
      · exact List.pairwise_cons.mpr ⟨fun entry hentry => le_of_mem_stamp hentry, hascending⟩

theorem Stamped.keeps {entries : List (τ × α)} (hstamped : Stamped inv res entries) :
    Keeps inv res (entries.map Prod.snd) := by
  refine List.pairwise_map.mpr (hstamped.ascending.imp_of_mem ?_)
  intro earlier later hearlier hlater hpoints
  refine not_lt.mpr ?_
  calc
    inv earlier.2 ≤ earlier.1 := hstamped.called earlier hearlier
    _ ≤ later.1 := hpoints
    _ ≤ res later.2 := hstamped.returned later hlater

/-! ### Merging -/

section Merge

variable [DecidableEq κ] (key : α → κ)

/-- What has one key. -/
def part (ops : List α) (k : κ) : List α := ops.filter fun op => key op = k

variable {key}

/-- Lists that agree on every key are permutations of each other. -/
theorem perm_of_parts {first second : List α}
    (hparts : ∀ k, (part key first k).Perm (part key second k)) : first.Perm second := by
  classical
  refine List.perm_iff_count.mpr fun op => ?_
  have hcount := List.perm_iff_count.mp (hparts (key op)) op
  rw [part, part, List.count_filter (by simp), List.count_filter (by simp)] at hcount
  exact hcount

/-- Of lists side by side, one for each key, only the list of a key has that key. -/
theorem filter_flatMap {β : Type*} (tag : β → κ) {parts : κ → List β}
    (htag : ∀ k, ∀ entry ∈ parts k, tag entry = k) {keys : List κ} (hkeys : keys.Nodup) {k : κ}
    (hk : k ∈ keys) : ((keys.flatMap parts).filter fun entry => tag entry = k) = parts k := by
  have hother : ∀ {others : List κ}, k ∉ others →
      ((others.flatMap parts).filter fun entry => tag entry = k) = [] := by
    intro others hnot
    refine List.filter_eq_nil_iff.mpr fun entry hentry => ?_
    obtain ⟨other, hmem, hpart⟩ := List.mem_flatMap.mp hentry
    rw [htag other entry hpart, decide_eq_true_eq]
    rintro rfl
    exact hnot hmem
  have hsame : ((parts k).filter fun entry => tag entry = k) = parts k :=
    List.filter_eq_self.mpr fun entry hentry => decide_eq_true (htag k entry hentry)
  induction keys with
  | nil => cases hk
  | cons other keys ih =>
      obtain ⟨hnew, hnodup⟩ := List.nodup_cons.mp hkeys
      rw [List.flatMap_cons, List.filter_append]
      rcases List.mem_cons.mp hk with rfl | hmem
      · rw [hother hnew, List.append_nil, hsame]
      · have hne : k ≠ other := fun heq => hnew (heq ▸ hmem)
        have hnone : ((parts other).filter fun entry => tag entry = k) = [] := by
          refine List.filter_eq_nil_iff.mpr fun entry hentry => ?_
          rw [htag other entry hentry, decide_eq_true_eq]
          exact hne.symm
        rw [hnone, List.nil_append, ih hnodup hmem]

/-- Earlier, or at the same point. -/
def ByPoint (earlier later : τ × α) : Prop := earlier.1 ≤ later.1

instance : DecidableRel (ByPoint : τ × α → τ × α → Prop) :=
  fun earlier later => inferInstanceAs (Decidable (earlier.1 ≤ later.1))

instance : Std.Total (ByPoint : τ × α → τ × α → Prop) :=
  ⟨fun first second => le_total first.1 second.1⟩

instance : IsTrans (τ × α) ByPoint := ⟨fun _ _ _ hfirst hsecond => le_trans hfirst hsecond⟩

/-- Sorting by points leaves each list that ascends as it is. -/
theorem filter_insertionSort {tag : τ × α → κ} {parts : κ → List (τ × α)}
    (htag : ∀ k, ∀ entry ∈ parts k, tag entry = k) {keys : List κ} (hkeys : keys.Nodup) {k : κ}
    (hk : k ∈ keys) (hascending : (parts k).Pairwise ByPoint) :
    (((keys.flatMap parts).insertionSort ByPoint).filter fun entry => tag entry = k) = parts k := by
  have hwhole := filter_flatMap tag htag hkeys hk
  have hsub : (parts k).Sublist ((keys.flatMap parts).insertionSort ByPoint) := by
    refine List.sublist_insertionSort hascending ?_
    rw [← hwhole]
    exact List.filter_sublist
  have hself : ((parts k).filter fun entry => tag entry = k) = parts k :=
    List.filter_eq_self.mpr fun entry hentry => decide_eq_true (htag k entry hentry)
  have hlength :=
    ((List.perm_insertionSort ByPoint (keys.flatMap parts)).filter fun entry => tag entry = k).length_eq
  rw [hwhole] at hlength
  have hfiltered := hsub.filter fun entry => tag entry = k
  rw [hself] at hfiltered
  exact (hfiltered.eq_of_length hlength.symm).symm

variable [OrderBot τ] {ops : List α}

/-- **Merging.** Orders of what each key has that keep real time are the parts of one that does: the
operations by their points, which leaves each part in its order. -/
theorem exists_merged (hinterval : ∀ op ∈ ops, inv op ≤ res op) (orders : κ → List α)
    (hperm : ∀ k, (orders k).Perm (part key ops k)) (hkeeps : ∀ k, Keeps inv res (orders k)) :
    ∃ order, order.Perm ops ∧ Keeps inv res order ∧ ∀ k, part key order k = orders k := by
  let parts : κ → List (τ × α) := fun k => stamp inv ⊥ (orders k)
  let keys := (ops.map key).dedup
  let merged := (keys.flatMap parts).insertionSort ByPoint
  have hmem : ∀ k, ∀ op ∈ orders k, op ∈ ops ∧ key op = k := by
    intro k op hop
    obtain ⟨hops, hkey⟩ := List.mem_filter.mp ((hperm k).mem_iff.mp hop)
    exact ⟨hops, of_decide_eq_true hkey⟩
  have hstamped : ∀ k, Stamped inv res (parts k) := fun k =>
    stamped_stamp (hkeeps k) (fun op hop => hinterval op (hmem k op hop).1) fun _ _ => bot_le
  have hsnd : ∀ k, (parts k).map Prod.snd = orders k := fun k => map_snd_stamp ⊥ (orders k)
  have htag : ∀ k, ∀ entry ∈ parts k, key entry.2 = k := by
    intro k entry hentry
    refine (hmem k entry.2 ?_).2
    rw [← hsnd k]
    exact List.mem_map_of_mem hentry
  have hentry : ∀ entry ∈ merged, ∃ k ∈ keys, entry ∈ parts k := by
    intro entry hentry
    exact List.mem_flatMap.mp ((List.perm_insertionSort ByPoint _).mem_iff.mp hentry)
  have hfilter : ∀ k, (merged.filter fun entry => key entry.2 = k) = parts k := by
    intro k
    by_cases hk : k ∈ keys
    · exact filter_insertionSort htag (List.nodup_dedup _) hk (hstamped k).ascending
    · have hnone : orders k = [] := by
        refine List.eq_nil_iff_forall_not_mem.mpr fun op hop => hk ?_
        obtain ⟨hops, rfl⟩ := hmem k op hop
        exact List.mem_dedup.mpr (List.mem_map_of_mem hops)
      have hempty : parts k = [] := by
        rw [← List.map_eq_nil_iff, hsnd k, hnone]
      rw [hempty]
      refine List.filter_eq_nil_iff.mpr fun entry hmember => ?_
      obtain ⟨other, hother, hpart⟩ := hentry entry hmember
      rw [decide_eq_true_eq, htag other entry hpart]
      exact fun heq => hk (heq ▸ hother)
  have hparts : ∀ k, part key (merged.map Prod.snd) k = orders k := by
    intro k
    rw [part, List.filter_map, ← hsnd k, ← hfilter k]
    rfl
  have hall : Stamped inv res merged := by
    refine ⟨fun entry hmember => ?_, fun entry hmember => ?_, List.pairwise_insertionSort ByPoint _⟩
    · obtain ⟨k, -, hpart⟩ := hentry entry hmember
      exact (hstamped k).called entry hpart
    · obtain ⟨k, -, hpart⟩ := hentry entry hmember
      exact (hstamped k).returned entry hpart
  have hperms : ∀ k, (part key (merged.map Prod.snd) k).Perm (part key ops k) := by
    intro k
    rw [hparts k]
    exact hperm k
  exact ⟨merged.map Prod.snd, perm_of_parts hperms, hall.keeps, hparts⟩

variable (inv res key)

/-- **Locality.** Operations have an order that keeps real time and is legal on every key exactly if
those of each key have one. -/
theorem exists_order_iff (hinterval : ∀ op ∈ ops, inv op ≤ res op) (Legal : κ → List α → Prop) :
    (∃ order, order.Perm ops ∧ Keeps inv res order ∧ ∀ k, Legal k (part key order k))
      ↔ ∀ k, ∃ order, order.Perm (part key ops k) ∧ Keeps inv res order ∧ Legal k order := by
  constructor
  · rintro ⟨order, hperm, hkeeps, hlegal⟩ k
    exact ⟨part key order k, hperm.filter _, hkeeps.filter _, hlegal k⟩
  · intro hall
    choose orders hperm hkeeps hlegal using hall
    obtain ⟨order, horder, hkeep, hparts⟩ := exists_merged hinterval orders hperm hkeeps
    refine ⟨order, horder, hkeep, fun k => ?_⟩
    rw [hparts k]
    exact hlegal k

end Merge

end RealTime
