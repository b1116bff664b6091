import OneBarrier.Linearizability
import Mathlib.Data.List.Perm.Basic

/-!
# The checker is sound and complete

The operations called before the first return of what remains are exactly those that nothing else that
remains has to precede, and an order of what remains starts with one of them. What is remembered as
failed has no order, so looking it up prunes nothing.
-/

namespace OneBarrier.Linearizability

/-! ### Registers -/

/-- Every action is valid on the value the earlier ones lead to. -/
def Legal (value : Int64) : List Action → Prop
  | [] => True
  | action :: actions => valid action value = true ∧ Legal (apply action value) actions

theorem apply_eq_written (action : Action) (value : Int64) :
    apply action value = (written action).getD value := by
  cases action <;> rfl

theorem getLast?_filterMap_written (action : Action) (actions : List Action) (value : Int64) :
    (((action :: actions).filterMap written).getLast?).getD value
      = ((actions.filterMap written).getLast?).getD (apply action value) := by
  rw [List.filterMap_cons, apply_eq_written]
  cases written action with
  | none => rfl
  | some latest =>
      dsimp only
      rw [List.getLast?_cons]
      cases (actions.filterMap written).getLast? <;> rfl

theorem readsLatest_iff_legal (value : Int64) (actions : List Action) :
    ReadsLatest value actions ↔ Legal value actions := by
  induction actions generalizing value with
  | nil => exact ⟨fun _ => trivial, fun _ before read after heq => by simp at heq⟩
  | cons action actions ih =>
      rw [Legal, ← ih]
      constructor
      · intro hreads
        refine ⟨?_, fun before read after heq => ?_⟩
        · cases action with
          | write written => rfl
          | read expected =>
              have hfirst := hreads [] expected actions rfl
              exact beq_iff_eq.mpr hfirst
        · have hlater := hreads (action :: before) read after (by rw [heq, List.cons_append])
          rwa [getLast?_filterMap_written] at hlater
      · rintro ⟨hvalid, hreads⟩ before read after heq
        cases before with
        | nil =>
            obtain ⟨rfl, -⟩ := List.cons.inj heq
            exact beq_iff_eq.mp hvalid
        | cons first before =>
            obtain ⟨rfl, hrest⟩ := List.cons.inj heq
            rw [getLast?_filterMap_written]
            exact hreads before read after hrest

/-! ### Candidates -/

section Candidates

variable {remaining : List Nat} {entries : List Entry} {id : Nat}

theorem Entry.le_total (first second : Entry) : first.le second ∨ second.le first := by
  simp only [Entry.le]
  rcases Nat.lt_trichotomy first.time.toNat second.time.toNat with htime | htime | htime
  · exact .inl (.inl (UInt64.lt_iff_toNat_lt.mpr htime))
  · have hsame := UInt64.toNat_inj.mp htime
    cases hcall : first.isCall with
    | true => exact .inl (.inr ⟨hsame, fun _ => rfl⟩)
    | false => exact .inr (.inr ⟨hsame.symm, fun hfirst => by cases hfirst⟩)
  · exact .inr (.inl (UInt64.lt_iff_toNat_lt.mpr htime))

theorem Entry.le_trans {first second third : Entry} (hfirst : first.le second)
    (hsecond : second.le third) : first.le third := by
  simp only [Entry.le] at *
  rcases hfirst with hlt | ⟨heq, hcall⟩
  · rcases hsecond with hlt' | ⟨heq', -⟩
    · exact .inl (UInt64.lt_trans hlt hlt')
    · exact .inl (heq' ▸ hlt)
  · rcases hsecond with hlt' | ⟨heq', hcall'⟩
    · exact .inl (heq ▸ hlt')
    · exact .inr ⟨heq.trans heq', fun hthird => hcall (hcall' hthird)⟩

theorem pairwise_sortedEntries (ops : List LinOp) : (sortedEntries ops).Pairwise Entry.le := by
  have htotal : Std.Total Entry.le := ⟨Entry.le_total⟩
  have htrans : IsTrans Entry Entry.le := ⟨fun _ _ _ => Entry.le_trans⟩
  exact List.pairwise_insertionSort Entry.le _

theorem mem_sortedEntries {ops : List LinOp} {entry : Entry} :
    entry ∈ sortedEntries ops ↔ ∃ op, ops[entry.id]? = some op
      ∧ entry.time = if entry.isCall then op.inv else op.res := by
  obtain ⟨time, isCall, id⟩ := entry
  rw [sortedEntries, List.mem_insertionSort, unsorted, List.mem_flatMap]
  constructor
  · rintro ⟨⟨op, index⟩, hmem, hentry⟩
    have hop := List.mem_zipIdx_iff_getElem?.mp hmem
    simp only [List.mem_cons, List.not_mem_nil, or_false, Entry.mk.injEq] at hentry
    rcases hentry with ⟨rfl, rfl, rfl⟩ | ⟨rfl, rfl, rfl⟩
    · exact ⟨op, hop, rfl⟩
    · exact ⟨op, hop, rfl⟩
  · rintro ⟨op, hop, htime⟩
    refine ⟨(op, id), List.mem_zipIdx_iff_getElem?.mpr hop, ?_⟩
    cases isCall with
    | true => simp [show time = op.inv from htime]
    | false => simp [show time = op.res from htime]

/-- A candidate's call stands before every return of what remains. -/
theorem exists_call_of_mem_candidates (hsorted : entries.Pairwise Entry.le)
    (hid : id ∈ candidates remaining entries) :
    id ∈ remaining ∧ ∃ call ∈ entries, call.id = id ∧ call.isCall = true
      ∧ ∀ other ∈ entries, other.id ∈ remaining → other.isCall = false → call.le other := by
  induction entries with
  | nil => cases hid
  | cons entry entries ih =>
      obtain ⟨hhead, htail⟩ := List.pairwise_cons.mp hsorted
      have hlater : id ∈ candidates remaining entries → (entry.id ∈ remaining → entry.isCall = true) →
          id ∈ remaining ∧ ∃ call ∈ entry :: entries, call.id = id ∧ call.isCall = true
            ∧ ∀ other ∈ entry :: entries, other.id ∈ remaining → other.isCall = false →
              call.le other := by
        intro hmem hcall
        obtain ⟨hremaining, call, hentry, hsame, hiscall, hbefore⟩ := ih htail hmem
        refine ⟨hremaining, call, List.mem_cons_of_mem _ hentry, hsame, hiscall, ?_⟩
        intro other hother hin hreturn
        rcases List.mem_cons.mp hother with rfl | hrest
        · rw [hcall hin] at hreturn
          cases hreturn
        · exact hbefore other hrest hin hreturn
      rw [candidates] at hid
      split at hid
      · rename_i hin
        split at hid
        · rename_i hiscall
          rcases List.mem_cons.mp hid with rfl | hmem
          · refine ⟨hin, entry, List.mem_cons_self, rfl, hiscall, fun other hother _ hreturn => ?_⟩
            rcases List.mem_cons.mp hother with rfl | hrest
            · rw [hiscall] at hreturn
              cases hreturn
            · exact hhead other hrest
          · exact hlater hmem fun _ => hiscall
        · cases hid
      · rename_i hout
        exact hlater hid fun hin => absurd hin hout

theorem mem_candidates_of_call (hsorted : entries.Pairwise Entry.le) {call : Entry}
    (hcall : call ∈ entries) (hremaining : call.id ∈ remaining) (hiscall : call.isCall = true)
    (hbefore : ∀ other ∈ entries, other.id ∈ remaining → other.isCall = false → ¬ other.le call) :
    call.id ∈ candidates remaining entries := by
  induction entries with
  | nil => cases hcall
  | cons entry entries ih =>
      obtain ⟨hhead, htail⟩ := List.pairwise_cons.mp hsorted
      have hrest : ∀ other ∈ entries, other.id ∈ remaining → other.isCall = false →
          ¬ other.le call := fun other hother => hbefore other (List.mem_cons_of_mem _ hother)
      rw [candidates]
      split
      · rename_i hin
        split
        · rcases List.mem_cons.mp hcall with rfl | hmem
          · exact List.mem_cons_self
          · exact List.mem_cons_of_mem _ (ih htail hmem hrest)
        · rename_i hreturn
          rcases List.mem_cons.mp hcall with rfl | hmem
          · exact absurd hiscall hreturn
          · exact absurd (hhead call hmem)
              (hbefore entry List.mem_cons_self hin (Bool.eq_false_iff.mpr hreturn))
      · rename_i hout
        rcases List.mem_cons.mp hcall with rfl | hmem
        · exact absurd hremaining hout
        · exact ih htail hmem hrest

end Candidates

/-- The operation with this index. -/
def opAt (ops : List LinOp) (id : Nat) : LinOp :=
  ops.getD id { procId := 0, action := .read 0, inv := 0, res := 0 }

theorem getElem?_opAt {ops : List LinOp} {id : Nat} (hid : id < ops.length) :
    ops[id]? = some (opAt ops id) := by
  rw [opAt, List.getD_eq_getElem?_getD, List.getElem?_eq_getElem hid, Option.getD_some]

section Search

variable {ops : List LinOp} {remaining : List Nat}

/-- The candidates are what remains and nothing that remains has returned before. -/
theorem mem_candidates_iff (hremaining : ∀ id ∈ remaining, id < ops.length) {id : Nat} :
    id ∈ candidates remaining (sortedEntries ops) ↔ id ∈ remaining
      ∧ ∀ other ∈ remaining, ¬ (opAt ops other).res < (opAt ops id).inv := by
  constructor
  · intro hid
    obtain ⟨hin, call, hcall, rfl, hiscall, hbefore⟩ :=
      exists_call_of_mem_candidates (pairwise_sortedEntries ops) hid
    refine ⟨hin, fun other hother hlt => ?_⟩
    obtain ⟨op, hop, htime⟩ := mem_sortedEntries.mp hcall
    rw [getElem?_opAt (hremaining _ hin)] at hop
    obtain rfl := Option.some.inj hop
    have hle := hbefore { time := (opAt ops other).res, isCall := false, id := other }
      (mem_sortedEntries.mpr ⟨_, getElem?_opAt (hremaining other hother), rfl⟩) hother rfl
    rw [hiscall, if_pos rfl] at htime
    simp only [Entry.le, htime] at hle
    rcases hle with hless | ⟨hsame, -⟩
    · exact UInt64.lt_asymm hless hlt
    · exact UInt64.lt_irrefl _ (hsame ▸ hlt)
  · rintro ⟨hin, hfirst⟩
    refine @mem_candidates_of_call remaining (sortedEntries ops) (pairwise_sortedEntries ops)
      { time := (opAt ops id).inv, isCall := true, id } ?_ hin rfl ?_
    · exact mem_sortedEntries.mpr ⟨_, getElem?_opAt (hremaining id hin), rfl⟩
    · intro other hother hotherIn hreturn hle
      obtain ⟨op, hop, htime⟩ := mem_sortedEntries.mp hother
      rw [getElem?_opAt (hremaining _ hotherIn)] at hop
      obtain rfl := Option.some.inj hop
      rw [hreturn, if_neg Bool.false_ne_true] at htime
      simp only [Entry.le, htime, hreturn] at hle
      rcases hle with hless | ⟨-, hcall⟩
      · exact hfirst other.id hotherIn hless
      · exact Bool.false_ne_true (hcall trivial)

/-- What remains has an order, from this value on. -/
def Ordered (ops : List LinOp) (remaining : List Nat) (value : Int64) : Prop :=
  ∃ order : List Nat, order.Perm remaining
    ∧ order.Pairwise (fun earlier later => ¬ (opAt ops later).res < (opAt ops earlier).inv)
    ∧ Legal value (order.map fun id => (opAt ops id).action)

theorem ordered_nil (value : Int64) : Ordered ops [] value :=
  ⟨[], List.Perm.refl [], List.Pairwise.nil, trivial⟩

theorem perm_cons_filter (hnodup : remaining.Nodup) {id : Nat} (hid : id ∈ remaining) :
    remaining.Perm (id :: remaining.filter (· ≠ id)) := by
  have hfilter : remaining.filter (· ≠ id) = remaining.erase id := by
    rw [hnodup.erase_eq_filter]
    refine List.filter_congr fun other _ => ?_
    rw [decide_not]
    rfl
  rw [hfilter]
  exact List.perm_cons_erase hid

/-- An order starts with an operation that may come first, and goes on with an order of the rest. -/
theorem ordered_iff (hnonempty : remaining ≠ []) (hnodup : remaining.Nodup)
    (hinterval : ∀ id ∈ remaining, (opAt ops id).inv ≤ (opAt ops id).res) (value : Int64) :
    Ordered ops remaining value ↔ ∃ id ∈ remaining,
      (∀ other ∈ remaining, ¬ (opAt ops other).res < (opAt ops id).inv)
        ∧ valid (opAt ops id).action value = true
        ∧ Ordered ops (remaining.filter (· ≠ id)) (apply (opAt ops id).action value) := by
  constructor
  · rintro ⟨order, hperm, hpairwise, hlegal⟩
    cases order with
    | nil => exact absurd hperm.nil_eq.symm hnonempty
    | cons id rest =>
        obtain ⟨hfirst, hrest⟩ := List.pairwise_cons.mp hpairwise
        have hmem : ∀ other, other ∈ remaining ↔ other = id ∨ other ∈ rest := fun other => by
          rw [← hperm.mem_iff, List.mem_cons]
        have hid : id ∈ remaining := (hmem id).mpr (.inl rfl)
        refine ⟨id, hid, fun other hother => ?_, hlegal.1, rest, ?_, hrest, hlegal.2⟩
        · rcases (hmem other).mp hother with rfl | hlater
          · exact UInt64.not_lt.mpr (hinterval other hother)
          · exact hfirst other hlater
        · exact (hperm.trans (perm_cons_filter hnodup hid)).cons_inv
  · rintro ⟨id, hid, hfirst, hvalid, rest, hperm, hpairwise, hlegal⟩
    refine ⟨id :: rest, ?_, List.pairwise_cons.mpr ⟨fun later hlater => ?_, hpairwise⟩,
      hvalid, hlegal⟩
    · exact (hperm.cons id).trans (perm_cons_filter hnodup hid).symm
    · exact hfirst later (List.mem_of_mem_filter (hperm.mem_iff.mp hlater))

/-- What is remembered has no order. -/
def Remembers (ops : List LinOp) (memo : Memo) : Prop :=
  ∀ failed ∈ memo, ¬ Ordered ops failed.1 failed.2

/-- The search answers whether there is an order, and remembers only what has none. -/
def Decides (ops : List LinOp) (remaining : List Nat) (value : Int64) (result : Bool × Memo) : Prop :=
  (result.1 = true ↔ Ordered ops remaining value) ∧ Remembers ops result.2

theorem attempt_decides {search : List Nat → Int64 → Memo → Bool × Memo} {value : Int64}
    {ids : List Nat} (hids : ∀ id ∈ ids, id < ops.length)
    (hsearch : ∀ id ∈ ids, ∀ memo, Remembers ops memo →
      Decides ops (remaining.filter (· ≠ id)) (apply (opAt ops id).action value)
        (search (remaining.filter (· ≠ id)) (apply (opAt ops id).action value) memo))
    {memo : Memo} (hmemo : Remembers ops memo) :
    ((attempt ops search remaining value ids memo).1 = true ↔ ∃ id ∈ ids,
        valid (opAt ops id).action value = true
          ∧ Ordered ops (remaining.filter (· ≠ id)) (apply (opAt ops id).action value))
      ∧ Remembers ops (attempt ops search remaining value ids memo).2 := by
  induction ids generalizing memo with
  | nil => exact ⟨by simp [attempt], hmemo⟩
  | cons id ids ih =>
      have hrest := @ih (fun other hother => hids other (List.mem_cons_of_mem _ hother))
        (fun other hother => hsearch other (List.mem_cons_of_mem _ hother))
      rw [attempt, getElem?_opAt (hids id List.mem_cons_self)]
      simp only [List.exists_mem_cons_iff]
      split
      · rename_i hvalid
        obtain ⟨hdecides, hremembers⟩ := hsearch id List.mem_cons_self memo hmemo
        split
        · rename_i later hresult
          rw [hresult] at hdecides hremembers
          exact ⟨⟨fun _ => .inl ⟨hvalid, hdecides.mp rfl⟩, fun _ => rfl⟩, hremembers⟩
        · rename_i later hresult
          rw [hresult] at hdecides hremembers
          obtain ⟨hiff, hlater⟩ := hrest hremembers
          refine ⟨hiff.trans ⟨.inr, fun hor => hor.resolve_left fun hhead => ?_⟩, hlater⟩
          exact Bool.false_ne_true (hdecides.mpr hhead.2)
      · rename_i hinvalid
        obtain ⟨hiff, hlater⟩ := hrest hmemo
        exact ⟨hiff.trans ⟨.inr, fun hor => hor.resolve_left fun hhead => hinvalid hhead.1⟩, hlater⟩

/-- **The search lemma**, by induction on the number of operations that remain. -/
theorem recurse_decides (hinterval : ∀ id < ops.length, (opAt ops id).inv ≤ (opAt ops id).res)
    {depth : Nat} (hdepth : remaining.length ≤ depth) (hnodup : remaining.Nodup)
    (hremaining : ∀ id ∈ remaining, id < ops.length) (value : Int64) {memo : Memo}
    (hmemo : Remembers ops memo) :
    Decides ops remaining value (recurse ops (sortedEntries ops) depth remaining value memo) := by
  induction depth generalizing remaining value memo with
  | zero =>
      obtain rfl := List.eq_nil_of_length_eq_zero (Nat.le_zero.mp hdepth)
      exact ⟨⟨fun _ => ordered_nil value, fun _ => rfl⟩, hmemo⟩
  | succ depth ih =>
      rw [recurse]
      split
      · rename_i hempty
        rw [hempty]
        exact ⟨⟨fun _ => ordered_nil value, fun _ => rfl⟩, hmemo⟩
      rename_i hnonempty
      split
      · rename_i hknown
        exact ⟨⟨fun hfalse => Bool.noConfusion hfalse,
          fun hordered => absurd hordered (hmemo _ hknown)⟩, hmemo⟩
      have hcandidate : ∀ id ∈ candidates remaining (sortedEntries ops), id ∈ remaining :=
        fun id hid => ((mem_candidates_iff hremaining).mp hid).1
      have hattempt := @attempt_decides ops remaining (recurse ops (sortedEntries ops) depth) value
        (candidates remaining (sortedEntries ops))
        (fun id hid => hremaining id (hcandidate id hid)) ?_ memo hmemo
      · obtain ⟨hiff, hremembers⟩ := hattempt
        have hordered := (ordered_iff hnonempty hnodup
          (fun id hid => hinterval id (hremaining id hid)) value).symm
        have hfound : (∃ id ∈ candidates remaining (sortedEntries ops),
            valid (opAt ops id).action value = true
              ∧ Ordered ops (remaining.filter (· ≠ id)) (apply (opAt ops id).action value))
            ↔ Ordered ops remaining value := by
          rw [← hordered]
          simp only [mem_candidates_iff hremaining, and_assoc]
        rw [hfound] at hiff
        split
        · rename_i later hresult
          rw [hresult] at hiff hremembers
          exact ⟨hiff, hremembers⟩
        · rename_i later hresult
          rw [hresult] at hiff hremembers
          refine ⟨hiff, fun failed hfailed => ?_⟩
          rcases List.mem_cons.mp hfailed with rfl | hold
          · exact fun hordered => Bool.false_ne_true (hiff.mpr hordered)
          · exact hremembers failed hold
      · intro id hid memo hmemo
        have hin := hcandidate id hid
        refine ih ?_ (hnodup.filter _) (fun other hother => ?_) _ hmemo
        · have hshorter : (remaining.filter (· ≠ id)).length < remaining.length :=
            List.length_filter_lt_length_iff_exists.mpr ⟨id, hin, by simp⟩
          omega
        · exact hremaining other (List.mem_of_mem_filter hother)

end Search

/-! ### Histories -/

theorem map_opAt_range (ops : List LinOp) : (List.range ops.length).map (opAt ops) = ops := by
  refine List.ext_getElem? fun id => ?_
  by_cases hid : id < ops.length
  · rw [List.getElem?_map, List.getElem?_range hid, getElem?_opAt hid, Option.map_some]
  · rw [List.getElem?_eq_none (by simpa using hid), List.getElem?_eq_none (by simpa using hid)]

theorem ordered_range_iff (ops : List LinOp) (value : Int64) :
    Ordered ops (List.range ops.length) value ↔ Linearizable ops value := by
  constructor
  · rintro ⟨order, hperm, hpairwise, hlegal⟩
    refine ⟨order.map (opAt ops), ?_, List.pairwise_map.mpr hpairwise, ?_⟩
    · have hmap := hperm.map (opAt ops)
      rwa [map_opAt_range] at hmap
    · rw [readsLatest_iff_legal, List.map_map]
      exact hlegal
  · rintro ⟨order, hperm, hpairwise, hreads⟩
    rw [← map_opAt_range ops] at hperm
    have hcomp := congrFun (congrFun (List.eq_map_comp_perm (opAt ops)) order) (List.range ops.length)
    obtain ⟨ids, rfl, hids⟩ := hcomp.mpr hperm
    refine ⟨ids, hids, List.pairwise_map.mp hpairwise, ?_⟩
    rw [readsLatest_iff_legal, List.map_map] at hreads
    exact hreads

theorem isLinearizable_eq_true {ops : List LinOp} (hinterval : ∀ op ∈ ops, op.inv ≤ op.res)
    (init : Int64) :
    isLinearizable ops init = true ↔ Ordered ops (List.range ops.length) init := by
  have hindexed : ∀ id < ops.length, (opAt ops id).inv ≤ (opAt ops id).res := fun id hid =>
    hinterval _ (List.mem_of_getElem? (getElem?_opAt hid))
  have hempty : Remembers ops [] := fun _ hfailed => by cases hfailed
  have hdecides := recurse_decides hindexed (Nat.le_of_eq List.length_range) List.nodup_range
    (fun id hid => List.mem_range.mp hid) init hempty
  rw [isLinearizable, hdecides.1]

/-- **The checker is exact.** -/
theorem isLinearizable_iff {ops : List LinOp} (hinterval : ∀ op ∈ ops, op.inv ≤ op.res)
    (init : Int64) : isLinearizable ops init = true ↔ Linearizable ops init := by
  rw [isLinearizable_eq_true hinterval, ordered_range_iff]

/-- Reads that overlap two writes. -/
def overlapping : List LinOp :=
  [⟨1, .write 1, 0, 5⟩, ⟨2, .read 1, 2, 4⟩, ⟨3, .write 2, 4, 9⟩, ⟨2, .read 2, 6, 8⟩,
    ⟨1, .read 2, 10, 11⟩]

theorem isLinearizable_overlapping :
    isLinearizable overlapping 0 = true
      ∧ (isLinearizable overlapping 0 = true ↔ Linearizable overlapping 0) :=
  ⟨by decide +kernel, isLinearizable_iff (by decide) 0⟩

end OneBarrier.Linearizability
