import OneBarrier.Spec
import Mathlib.Data.List.Induction
import Mathlib.Data.Finset.Insert
import Mathlib.Data.Finset.Dedup

/-!
# What the specification guarantees

Every reachable state is a view of one list of ops, in which every op is the next of its client: the
snapshot holds a part of it from the front, the log the rest, and a state that is up holds all of
it. The four properties are read off such a view.
-/

namespace OneBarrier.Spec

variable {Client : Type} [DecidableEq Client]

/-- The highest sequence number of each client. -/
def highWater (ops : List (Op Client)) : Client → Nat :=
  ops.foldl (fun hw op => Function.update hw op.client op.seq) fun _ => 0

/-- Every op is the next of its client. -/
def InOrder (ops : List (Op Client)) : Prop :=
  ∀ front op back, ops = front ++ op :: back → op.seq = highWater front op.client + 1

/-- The state in which `ops` are acknowledged and the first `cut` of them are in the snapshot. -/
def view (ops : List (Op Client)) (cut : Nat) (up : Bool) : State Client where
  value := if up then ops.length else 0
  hw := if up then highWater ops else fun _ => 0
  applied := if up then ops.toFinset else ∅
  acked := ops.toFinset
  durLog := ops.drop cut
  snapVal := (ops.take cut).length
  snapHW := highWater (ops.take cut)
  snapApplied := (ops.take cut).toFinset
  crashed := !up

theorem highWater_concat (ops : List (Op Client)) (op : Op Client) :
    highWater (ops ++ [op]) = Function.update (highWater ops) op.client op.seq := by
  simp [highWater]

variable {ops : List (Op Client)} {op : Op Client}

theorem inOrder_nil : InOrder ([] : List (Op Client)) := by
  intro front op back hops
  exact absurd hops (by simp)

theorem InOrder.front {back : List (Op Client)} (horder : InOrder (ops ++ back)) : InOrder ops := by
  rintro front op rest rfl
  exact horder front op (rest ++ back) (by simp)

theorem inOrder_concat :
    InOrder (ops ++ [op]) ↔ InOrder ops ∧ op.seq = highWater ops op.client + 1 := by
  constructor
  · exact fun horder => ⟨horder.front, horder ops op [] rfl⟩
  · rintro ⟨horder, hseq⟩ front other back hops
    obtain rfl | ⟨back, last, rfl⟩ := List.eq_nil_or_concat' back
    · obtain ⟨rfl, hlast⟩ := List.append_inj' hops rfl
      obtain rfl : op = other := List.head_eq_of_cons_eq hlast
      exact hseq
    · rw [← List.cons_append, ← List.append_assoc] at hops
      obtain ⟨rfl, -⟩ := List.append_inj' hops rfl
      exact horder front other back rfl

/-- Later ops of a client have higher numbers. -/
theorem InOrder.highWater_le {back : List (Op Client)} (horder : InOrder (ops ++ back))
    (client : Client) : highWater ops client ≤ highWater (ops ++ back) client := by
  induction back using List.reverseRecOn with
  | nil => rw [List.append_nil]
  | append_singleton back op ih =>
      rw [← List.append_assoc] at horder ⊢
      obtain ⟨hfront, hseq⟩ := inOrder_concat.mp horder
      refine (ih hfront).trans ?_
      rw [highWater_concat]
      by_cases hclient : client = op.client
      · rw [hclient, Function.update_self]
        omega
      · rw [Function.update_of_ne hclient]

theorem InOrder.seq_le (horder : InOrder ops) (hmem : op ∈ ops) :
    op.seq ≤ highWater ops op.client := by
  obtain ⟨front, back, rfl⟩ := List.append_of_mem hmem
  rw [List.append_cons] at horder ⊢
  refine le_trans ?_ (horder.highWater_le op.client)
  rw [highWater_concat, Function.update_self]

theorem InOrder.nodup (horder : InOrder ops) : ops.Nodup := by
  induction ops using List.reverseRecOn with
  | nil => exact List.nodup_nil
  | append_singleton ops op ih =>
      obtain ⟨hfront, hseq⟩ := inOrder_concat.mp horder
      refine List.nodup_append.mpr ⟨ih hfront, List.nodup_singleton op, ?_⟩
      rintro other hother last hlast rfl
      obtain rfl := List.mem_singleton.mp hlast
      have hle := hfront.seq_le hother
      omega

/-- Behind a part of the list come the ops above its high-water marks. -/
theorem InOrder.above_iff {back : List (Op Client)} (horder : InOrder (ops ++ back))
    (hmem : op ∈ ops ++ back) : highWater ops op.client < op.seq ↔ op ∈ back := by
  constructor
  · intro habove
    obtain hfront | hback := List.mem_append.mp hmem
    · have hle := horder.front.seq_le hfront
      omega
    · exact hback
  · intro hback
    obtain ⟨middle, rest, rfl⟩ := List.append_of_mem hback
    rw [← List.append_assoc] at horder
    have hseq := horder _ op rest rfl
    have hle := InOrder.highWater_le (horder.front) op.client
    omega

/-! ### The steps on views -/

theorem replay_view {back : List (Op Client)} (horder : InOrder (ops ++ back)) :
    replay back { value := ops.length, applied := ops.toFinset, hw := highWater ops }
      = { value := (ops ++ back).length
          applied := (ops ++ back).toFinset
          hw := highWater (ops ++ back) } := by
  induction back generalizing ops with
  | nil => rw [replay, List.append_nil]
  | cons op back ih =>
      have hseq := horder ops op back rfl
      rw [List.append_cons] at horder ⊢
      rw [replay, if_pos (by dsimp only; omega), ← ih horder, highWater_concat]
      congr 2
      · simp
      · rw [List.toFinset_append]
        simp

theorem init_eq_view : (init : State Client) = view [] 0 true := rfl

theorem deliver_view {cut : Nat} (hcut : cut ≤ ops.length)
    (horder : InOrder (ops ++ [op])) : Deliver op (view ops cut true) (view (ops ++ [op]) cut true) := by
  obtain ⟨-, hseq⟩ := inOrder_concat.mp horder
  have hfresh : (view ops cut true).hw op.client < op.seq := by
    change highWater ops op.client < op.seq
    omega
  refine ⟨rfl, by omega, ?_, ?_⟩
  · change op.seq ≤ highWater ops op.client + 1
    omega
  · rw [if_pos hfresh]
    have hset : (ops ++ [op]).toFinset = insert op ops.toFinset := by
      rw [List.toFinset_append]
      simp
    ext1
    · simp [view]
    · exact highWater_concat ops op
    · exact hset
    · exact hset
    · exact List.drop_append_of_le_length hcut
    · simp [view, List.take_append_of_le_length hcut]
    · simp [view, List.take_append_of_le_length hcut]
    · simp [view, List.take_append_of_le_length hcut]
    · rfl

theorem snapshot_view (cut : Nat) :
    Snapshot (view ops cut true) (view ops ops.length true) := by
  refine ⟨rfl, ?_⟩
  ext1
  all_goals simp [view]

theorem crash_view (cut : Nat) : Crash (view ops cut true) (view ops cut false) := ⟨rfl, rfl⟩

theorem recover_view {cut : Nat} (horder : InOrder ops) :
    Recover (view ops cut false) (view ops cut true) := by
  have hreplay : replay (ops.drop cut)
      { value := (ops.take cut).length
        applied := (ops.take cut).toFinset
        hw := highWater (ops.take cut) }
      = { value := ops.length, applied := ops.toFinset, hw := highWater ops } := by
    rw [replay_view (by rwa [List.take_append_drop]), List.take_append_drop]
  refine ⟨rfl, ?_⟩
  ext1
  · exact (congrArg Progress.value hreplay).symm
  · exact (congrArg Progress.hw hreplay).symm
  · exact (congrArg Progress.applied hreplay).symm
  all_goals rfl

/-! ### The four properties -/

structure Safe (state : State Client) : Prop where
  exactlyOnce : ExactlyOnce state
  noLostAck : NoLostAck state
  snapshotConsistent : SnapshotConsistent state
  ackedDurable : AckedDurable state

theorem safe_view (horder : InOrder ops) (cut : Nat) (up : Bool) : Safe (view ops cut up) where
  exactlyOnce hup := by
    obtain rfl : up = true := by simpa [view] using hup
    change (ops.length : Int) = ops.toFinset.card
    rw [List.toFinset_card_of_nodup horder.nodup]
  noLostAck hup := by
    obtain rfl : up = true := by simpa [view] using hup
    exact Finset.Subset.refl _
  snapshotConsistent := by
    change ((ops.take cut).length : Int) = (ops.take cut).toFinset.card
    rw [List.toFinset_card_of_nodup (horder.nodup.sublist (List.take_sublist cut ops))]
  ackedDurable op hacked := by
    have hmem : op ∈ ops := List.mem_toFinset.mp hacked
    rw [← List.take_append_drop cut ops] at hmem
    obtain hsnap | hlog := List.mem_append.mp hmem
    · exact .inl (List.mem_toFinset.mpr hsnap)
    · exact .inr hlog

/-- A view of a list in which every op is the next of its client. -/
def IsView (state : State Client) : Prop :=
  ∃ ops cut up, InOrder ops ∧ cut ≤ ops.length ∧ state = view ops cut up

theorem IsView.next {state next : State Client} (hview : IsView state) (hnext : Next state next) :
    IsView next := by
  obtain ⟨ops, cut, up, horder, hcut, rfl⟩ := hview
  obtain ⟨op, hup, hseq, hle, hstate⟩ | ⟨hup, hstate⟩ | ⟨hup, hstate⟩ | ⟨hdown, hstate⟩ := hnext
  · obtain rfl : up = true := by simpa [view] using hup
    by_cases hfresh : (view ops cut true).hw op.client < op.seq
    · have hnew : InOrder (ops ++ [op]) := by
        refine inOrder_concat.mpr ⟨horder, ?_⟩
        change op.seq ≤ highWater ops op.client + 1 at hle
        change highWater ops op.client < op.seq at hfresh
        omega
      refine ⟨ops ++ [op], cut, true, hnew, by simp; omega, ?_⟩
      exact hstate.trans (deliver_view hcut hnew).2.2.2.symm
    · rw [if_neg hfresh] at hstate
      exact ⟨ops, cut, true, horder, hcut, hstate⟩
  · obtain rfl : up = true := by simpa [view] using hup
    exact ⟨ops, ops.length, true, horder, le_rfl, hstate.trans (snapshot_view cut).2.symm⟩
  · obtain rfl : up = true := by simpa [view] using hup
    exact ⟨ops, cut, false, horder, hcut, hstate⟩
  · obtain rfl : up = false := by simpa [view] using hdown
    exact ⟨ops, cut, true, horder, hcut, hstate.trans (recover_view horder).2.symm⟩

/-- The four properties hold in every reachable state, for any clients and any sequence numbers. -/
theorem safe_of_reachable {state : State Client} (hreachable : Reachable state) : Safe state := by
  have hview : IsView state := by
    induction hreachable with
    | refl => exact ⟨[], 0, true, inOrder_nil, le_rfl, init_eq_view⟩
    | tail _ hnext ih => exact ih.next hnext
  obtain ⟨ops, cut, up, horder, -, rfl⟩ := hview
  exact safe_view horder cut up

/-! ### What a crash costs -/

theorem isView_of_reachable {state : State Client} (hreachable : Reachable state) :
    IsView state := by
  induction hreachable with
  | refl => exact ⟨[], 0, true, inOrder_nil, le_rfl, init_eq_view⟩
  | tail _ hnext ih => exact ih.next hnext

/-- A client's ops are numbered from one to its high-water mark, without a gap. -/
theorem InOrder.mem_iff (horder : InOrder ops) :
    op ∈ ops ↔ 1 ≤ op.seq ∧ op.seq ≤ highWater ops op.client := by
  induction ops using List.reverseRecOn with
  | nil =>
      refine iff_of_false List.not_mem_nil ?_
      change ¬ (1 ≤ op.seq ∧ op.seq ≤ 0)
      omega
  | append_singleton ops last ih =>
      obtain ⟨hfront, hseq⟩ := inOrder_concat.mp horder
      rw [List.mem_append, List.mem_singleton, ih hfront, highWater_concat]
      by_cases hclient : op.client = last.client
      · rw [hclient, Function.update_self, hseq]
        constructor
        · rintro (⟨hpositive, hle⟩ | rfl)
          · exact ⟨hpositive, by omega⟩
          · omega
        · rintro ⟨hpositive, hle⟩
          obtain hold | hlast := Nat.lt_or_eq_of_le hle
          · exact .inl ⟨hpositive, by omega⟩
          · right
            obtain ⟨client, seq⟩ := op
            obtain ⟨client', seq'⟩ := last
            simp only at hclient hlast hseq
            rw [hclient, hlast, hseq]
      · rw [Function.update_of_ne hclient]
        refine or_iff_left ?_
        rintro rfl
        exact hclient rfl

/-- **A crash loses nothing.** Whatever was delivered, redelivered, cut and recovered before, a crash
and the recovery behind it give back the state before the crash, in which the ops acknowledged are
those applied: of each client the ops from one to its high-water mark. -/
theorem recover_crash_eq {state crashed recovered : State Client} (hreachable : Reachable state)
    (hcrash : Crash state crashed) (hrecover : Recover crashed recovered) :
    recovered = state ∧ state.applied = state.acked
      ∧ ∀ op, op ∈ state.acked ↔ 1 ≤ op.seq ∧ op.seq ≤ state.hw op.client := by
  obtain ⟨ops, cut, up, horder, -, rfl⟩ := isView_of_reachable hreachable
  obtain rfl : up = true := by simpa [view] using hcrash.1
  obtain rfl : crashed = view ops cut false := hcrash.2
  refine ⟨hrecover.2.trans (recover_view horder).2.symm, rfl, fun op => ?_⟩
  exact List.mem_toFinset.trans horder.mem_iff

theorem recover_crash_eq_delivered :
    let op : Op (Fin 1) := { client := 0, seq := 1 }
    ∃ crashed recovered, Crash (view [op] 0 true) crashed ∧ Recover crashed recovered
      ∧ recovered = view [op] 0 true ∧ (view [op] 0 true).applied = (view [op] 0 true).acked := by
  intro op
  have horder : InOrder ([] ++ [op]) := inOrder_concat.mpr ⟨inOrder_nil, rfl⟩
  have hdeliver : Deliver op init (view [op] 0 true) := deliver_view (Nat.le_refl 0) horder
  have hrecover : Recover (view [op] 0 false) (view [op] 0 true) := recover_view horder
  obtain ⟨hsame, happlied, -⟩ :=
    recover_crash_eq (.tail .refl (.inl ⟨op, hdeliver⟩)) (crash_view 0) hrecover
  exact ⟨_, _, crash_view 0, hrecover, hsame, happlied⟩

end OneBarrier.Spec
