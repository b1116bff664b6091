import OneBarrier.Lib.Locality
import OneBarrier.Proof.Linearizability
import Mathlib.Logic.Function.Basic
import Mathlib.Order.Lattice.Nat

/-!
# What a verdict says and what it depends on

The checker looks at one register. A store of many keys is linearizable exactly if it accepts what was
done on each of them, and its verdict on a history depends on nothing but the actions and which
operations had returned when others were called.
-/

namespace OneBarrier.Linearizability

open RealTime

/-! ### A store of registers -/

section Store

variable {κ : Type} [DecidableEq κ]

/-- An operation on the register of a key. -/
structure KeyedOp (κ : Type) where
  key : κ
  op : LinOp
  deriving DecidableEq

/-- Every action is valid on what the earlier ones make of the store. -/
def LegalStore (store : κ → Int64) : List (KeyedOp κ) → Prop
  | [] => True
  | { key, op } :: ops =>
      valid op.action (store key) = true
        ∧ LegalStore (Function.update store key (apply op.action (store key))) ops

/-- The operations have an order that keeps real time and in which every read reads the latest write to
its key. -/
def LinearizableStore (ops : List (KeyedOp κ)) (init : κ → Int64) : Prop :=
  ∃ order : List (KeyedOp κ), order.Perm ops
    ∧ order.Pairwise (fun earlier later => ¬ later.op.res < earlier.op.inv)
    ∧ LegalStore init order

/-- What was done on a key. -/
def onKey (ops : List (KeyedOp κ)) (key : κ) : List LinOp :=
  (ops.filter fun entry => entry.key = key).map KeyedOp.op

theorem legalStore_iff (store : κ → Int64) (ops : List (KeyedOp κ)) :
    LegalStore store ops ↔ ∀ key, Legal (store key) ((onKey ops key).map LinOp.action) := by
  induction ops generalizing store with
  | nil => exact iff_of_true trivial fun _ => trivial
  | cons entry ops ih =>
      obtain ⟨key, op⟩ := entry
      have hself : onKey (⟨key, op⟩ :: ops) key = op :: onKey ops key := by
        rw [onKey, List.filter_cons_of_pos (by simp), List.map_cons, onKey]
      have hother : ∀ other, other ≠ key → onKey (⟨key, op⟩ :: ops) other = onKey ops other := by
        intro other hne
        rw [onKey, List.filter_cons_of_neg (by simpa using hne.symm), onKey]
      rw [LegalStore, ih]
      constructor
      · rintro ⟨hvalid, hlater⟩ other
        by_cases hkey : other = key
        · subst hkey
          have hsame := hlater other
          rw [Function.update_self] at hsame
          rw [hself, List.map_cons]
          exact ⟨hvalid, hsame⟩
        · have hsame := hlater other
          rw [Function.update_of_ne hkey] at hsame
          rw [hother other hkey]
          exact hsame
      · intro hall
        have hkey := hall key
        rw [hself, List.map_cons] at hkey
        refine ⟨hkey.1, fun other => ?_⟩
        by_cases hsame : other = key
        · subst hsame
          rw [Function.update_self]
          exact hkey.2
        · have hlegal := hall other
          rw [hother other hsame] at hlegal
          rw [Function.update_of_ne hsame]
          exact hlegal

omit [DecidableEq κ] in
/-- An order of the operations on a key is an order of its entries. -/
theorem linearizable_map_iff (entries : List (KeyedOp κ)) (value : Int64) :
    Linearizable (entries.map KeyedOp.op) value
      ↔ ∃ order : List (KeyedOp κ), order.Perm entries
        ∧ order.Pairwise (fun earlier later => ¬ later.op.res < earlier.op.inv)
        ∧ Legal value ((order.map KeyedOp.op).map LinOp.action) := by
  constructor
  · rintro ⟨order, hperm, hpairwise, hreads⟩
    have hcomp := congrFun (congrFun (List.eq_map_comp_perm (KeyedOp.op (κ := κ))) order) entries
    obtain ⟨keyed, rfl, hkeyed⟩ := hcomp.mpr hperm
    exact ⟨keyed, hkeyed, List.pairwise_map.mp hpairwise, (readsLatest_iff_legal value _).mp hreads⟩
  · rintro ⟨order, hperm, hpairwise, hlegal⟩
    exact ⟨order.map KeyedOp.op, hperm.map _, List.pairwise_map.mpr hpairwise,
      (readsLatest_iff_legal value _).mpr hlegal⟩

/-- **The checker is the core.** A history of a store is linearizable exactly if the checker accepts
what was done on each key. -/
theorem linearizableStore_iff {ops : List (KeyedOp κ)}
    (hinterval : ∀ entry ∈ ops, entry.op.inv ≤ entry.op.res) (init : κ → Int64) :
    LinearizableStore ops init ↔ ∀ key, isLinearizable (onKey ops key) (init key) = true := by
  let inv : KeyedOp κ → Nat := fun entry => entry.op.inv.toNat
  let res : KeyedOp κ → Nat := fun entry => entry.op.res.toNat
  have hkeeps : ∀ order : List (KeyedOp κ), Keeps inv res order
      ↔ order.Pairwise fun earlier later => ¬ later.op.res < earlier.op.inv := fun _ => Iff.rfl
  have hlocal := exists_order_iff inv res KeyedOp.key
    (fun entry hentry => UInt64.le_iff_toNat_le.mp (hinterval entry hentry))
    (fun key order => Legal (init key) ((order.map KeyedOp.op).map LinOp.action))
  calc
    LinearizableStore ops init
      ↔ ∃ order : List (KeyedOp κ), order.Perm ops ∧ Keeps inv res order
          ∧ ∀ key, Legal (init key) ((onKey order key).map LinOp.action) := by
        simp only [LinearizableStore, legalStore_iff, hkeeps]
    _ ↔ ∀ key, ∃ order : List (KeyedOp κ), order.Perm (part KeyedOp.key ops key)
          ∧ Keeps inv res order ∧ Legal (init key) ((order.map KeyedOp.op).map LinOp.action) := hlocal
    _ ↔ ∀ key, isLinearizable (onKey ops key) (init key) = true := by
        refine forall_congr' fun key => ?_
        have honKey : ∀ op ∈ onKey ops key, op.inv ≤ op.res := by
          intro op hop
          obtain ⟨entry, hentry, rfl⟩ := List.mem_map.mp hop
          exact hinterval entry (List.mem_of_mem_filter hentry)
        rw [isLinearizable_eq_true honKey, ordered_range_iff, onKey, linearizable_map_iff]
        rfl

/-- Two registers whose operations overlap. -/
def twoKeys : List (KeyedOp String) :=
  [⟨"x", 1, .write 1, 0, 5⟩, ⟨"y", 2, .write 7, 1, 6⟩, ⟨"x", 2, .read 1, 7, 9⟩,
    ⟨"y", 1, .read 0, 3, 4⟩]

theorem linearizableStore_twoKeys : LinearizableStore twoKeys fun _ => 0 := by
  refine (linearizableStore_iff (by decide) fun _ => 0).mpr fun key => ?_
  by_cases hx : key = "x"
  · rw [hx]
    decide +kernel
  · by_cases hy : key = "y"
    · rw [hy]
      decide +kernel
    · have hnone : onKey twoKeys key = [] := by
        simp [onKey, twoKeys, Ne.symm hx, Ne.symm hy]
      rw [hnone]
      rfl

end Store

/-! ### What the verdict depends on -/

/-- **The verdict is about the order.** Histories with the same actions, recorded in any order, by any
threads and with any clock, in which the same operations had returned when others were called, get the
same verdict. -/
theorem isLinearizable_congr {ops ops' : List LinOp} (f : LinOp → LinOp)
    (hperm : ops'.Perm (ops.map f)) (hinterval : ∀ op ∈ ops, op.inv ≤ op.res)
    (haction : ∀ op ∈ ops, (f op).action = op.action)
    (hprecedes : ∀ first ∈ ops, ∀ second ∈ ops,
      (f first).res < (f second).inv ↔ first.res < second.inv) (init : Int64) :
    isLinearizable ops' init = isLinearizable ops init := by
  have hinterval' : ∀ op ∈ ops', op.inv ≤ op.res := by
    intro op hop
    obtain ⟨other, hother, rfl⟩ := List.mem_map.mp (hperm.mem_iff.mp hop)
    refine UInt64.not_lt.mp ((hprecedes other hother other hother).not.mpr ?_)
    exact UInt64.not_lt.mpr (hinterval other hother)
  have hkeeps : ∀ {order : List LinOp}, order.Perm ops →
      ((order.map f).Pairwise (fun earlier later => ¬ later.res < earlier.inv)
        ↔ order.Pairwise fun earlier later => ¬ later.res < earlier.inv) := by
    intro order horder
    rw [List.pairwise_map]
    refine List.Pairwise.iff_of_mem fun hearlier hlater => not_congr ?_
    exact hprecedes _ (horder.mem_iff.mp hlater) _ (horder.mem_iff.mp hearlier)
  have hactions : ∀ {order : List LinOp}, order.Perm ops →
      (order.map f).map LinOp.action = order.map LinOp.action := by
    intro order horder
    rw [List.map_map]
    exact List.map_congr_left fun op hop => haction op (horder.mem_iff.mp hop)
  rw [Bool.eq_iff_iff, isLinearizable_eq_true hinterval', isLinearizable_eq_true hinterval,
    ordered_range_iff, ordered_range_iff]
  constructor
  · rintro ⟨order', horder', hpairwise, hreads⟩
    have hcomp := congrFun (congrFun (List.eq_map_comp_perm f) order') ops
    obtain ⟨order, rfl, horder⟩ := hcomp.mpr (horder'.trans hperm)
    refine ⟨order, horder, (hkeeps horder).mp hpairwise, ?_⟩
    rwa [hactions horder] at hreads
  · rintro ⟨order, horder, hpairwise, hreads⟩
    refine ⟨order.map f, (horder.map f).trans hperm.symm, (hkeeps horder).mpr hpairwise, ?_⟩
    rwa [hactions horder]

/-- A clock that counts in other units, from another start, and the operations as another order of the
threads records them. -/
theorem isLinearizable_slower_clock :
    isLinearizable [⟨9, .read 1, 25, 45⟩, ⟨9, .write 1, 5, 55⟩] 0
      = isLinearizable [⟨1, .write 1, 0, 5⟩, ⟨2, .read 1, 2, 4⟩] 0 :=
  isLinearizable_congr (fun op => ⟨9, op.action, 5 + 10 * op.inv, 5 + 10 * op.res⟩)
    (List.Perm.swap _ _ _) (by decide) (fun _ _ => rfl) (by decide) 0

end OneBarrier.Linearizability
