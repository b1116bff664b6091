import OneBarrier.Proof.Recovery

/-!
# Snapshots cut short, and snapshots imported

The table of marks is read up to the first mark that is cut short, and what follows is then read as
if the table had ended there. So whether a cut snapshot is taken for a whole one is up to the bytes
at the cut: the low half of a mark's number is read as the length of the state.

An import writes what it is given to the disk whether or not the engine in memory has adopted it.
-/

namespace OneBarrier

open Wire Durable

namespace Core

variable {S : Type} [StateMachine S]

/-- What loading adopts, if it does not give up. -/
def ofSnapshot (S : Type) [StateMachine S] (input : Bytes) : Option (Core S) := do
  let ((lastTs, count), rest) ← readHeader input
  let marks := loadMarks count rest ∅
  let (length, rest) ← u32 marks.2
  let (state, _) ← bytes length.toNat rest
  some { state := StateMachine.restore state, applied := marks.1, lastTs }

theorem loadSnapshot_eq_getD (core : Core S) (input : Bytes) :
    core.loadSnapshot input = (ofSnapshot S input).getD core := by
  rw [loadSnapshot, ofSnapshot]
  change _ = Option.getD (Option.bind ((u64 input).bind fun first => (u32 first.2).bind fun second =>
    some ((first.1, second.1.toNat), second.2)) _) core
  cases u64 input with
  | none => rfl
  | some first =>
      obtain ⟨lastTs, rest⟩ := first
      dsimp only [Option.bind_some]
      cases u32 rest with
      | none => rfl
      | some second =>
          obtain ⟨count, rest⟩ := second
          dsimp only [Option.bind_some]
          cases u32 (loadMarks count.toNat rest ∅).2 with
          | none => rfl
          | some third =>
              obtain ⟨length, rest⟩ := third
              dsimp only [Option.bind_eq_bind, Option.bind_some]
              cases bytes length.toNat rest <;> rfl

/-- What the reader has left behind the table does not depend on what is in the table. -/
theorem snd_loadMarks (count : Nat) (input : Bytes) (marks : BTreeMap UInt32 UInt64) :
    (loadMarks count input marks).2 = (loadMarks count input ∅).2 := by
  have hany : ∀ first second : BTreeMap UInt32 UInt64,
      (loadMarks count input first).2 = (loadMarks count input second).2 := by
    induction count generalizing input with
    | zero => exact fun _ _ => rfl
    | succ count ih =>
        intro first second
        rw [loadMarks, loadMarks]
        cases u32 input with
        | none => rfl
        | some result =>
            obtain ⟨client, rest⟩ := result
            dsimp only
            cases u64 rest with
            | none => rfl
            | some result => exact ih result.2 _ _
  exact hany marks ∅

/-- What the reader has left behind the table. -/
def afterMarks (count : Nat) (input : Bytes) : Bytes := (loadMarks count input ∅).2

/-- A length, and that many bytes or more. -/
def HoldsState (left : Bytes) : Prop := 4 ≤ left.length ∧ leNat (left.take 4) + 4 ≤ left.length

end Core

/-! ### Fixed-width readers by length -/

theorem u32_eq (input : Bytes) :
    u32 input = if 4 ≤ input.length then some (UInt32.ofNat (leNat (input.take 4)), input.drop 4)
      else none := by
  change ((bytes 4 input).bind _).bind _ = _
  rw [bytes]
  split <;> rfl

theorem u64_eq (input : Bytes) :
    u64 input = if 8 ≤ input.length then some (UInt64.ofNat (leNat (input.take 8)), input.drop 8)
      else none := by
  change ((bytes 8 input).bind _).bind _ = _
  rw [bytes]
  split <;> rfl

theorem toNat_take_four (input : Bytes) :
    (UInt32.ofNat (leNat (input.take 4))).toNat = leNat (input.take 4) := by
  have hlt := leNat_lt (input.take 4)
  have hle : 256 ^ (input.take 4).length ≤ 2 ^ 32 :=
    Nat.pow_le_pow_right (by decide) (List.length_take_le 4 input)
  rw [UInt32.toNat_ofNat', Nat.mod_eq_of_lt (Nat.lt_of_lt_of_le hlt hle)]

namespace Core

variable {S : Type} [StateMachine S]

theorem isSome_ofSnapshot {input : Bytes} :
    (ofSnapshot S input).isSome ↔ 12 ≤ input.length
      ∧ HoldsState (afterMarks (leNat ((input.drop 8).take 4)) (input.drop 12)) := by
  rw [ofSnapshot]
  by_cases hlength : 12 ≤ input.length
  · rw [readHeader_of_length_le hlength, Option.bind_eq_bind, Option.bind_some, toNat_take_four]
    dsimp only
    rw [u32_eq, ← afterMarks]
    generalize afterMarks (leNat ((input.drop 8).take 4)) (input.drop 12) = left
    rw [HoldsState, and_iff_right hlength]
    split
    · rename_i hfour
      rw [Option.bind_eq_bind, Option.bind_some]
      dsimp only
      rw [toNat_take_four, bytes, List.length_drop, and_iff_right hfour]
      split
      · rename_i hstate
        exact iff_of_true rfl (by omega)
      · rename_i hstate
        exact iff_of_false Bool.false_ne_true (by omega)
    · rename_i hshort
      exact iff_of_false Bool.false_ne_true fun hholds => hshort hholds.1
  · rw [readHeader_of_length_lt (Nat.not_le.mp hlength)]
    exact iff_of_false Bool.false_ne_true fun hholds => hlength hholds.1

/-! ### The table of marks, cut -/

theorem afterMarks_zero (input : Bytes) : afterMarks 0 input = input := rfl

theorem afterMarks_succ (count : Nat) (input : Bytes) :
    afterMarks (count + 1) input
      = if 12 ≤ input.length then afterMarks count (input.drop 12)
        else if 4 ≤ input.length then input.drop 4 else input := by
  rw [afterMarks, loadMarks, u32_eq]
  by_cases hfour : 4 ≤ input.length
  · rw [if_pos hfour, if_pos hfour]
    dsimp only
    rw [u64_eq, List.length_drop]
    by_cases htwelve : 12 ≤ input.length
    · rw [if_pos htwelve, if_pos (by omega)]
      dsimp only
      rw [snd_loadMarks, List.drop_drop, afterMarks]
    · rw [if_neg htwelve, if_neg (by omega)]
  · rw [if_neg hfour, if_neg hfour, if_neg (by omega)]

/-- Behind no cut of the table is there what looks like a state. -/
def NoCutHolds (count : Nat) (table : Bytes) : Prop :=
  ∀ cut < table.length, ¬ HoldsState (afterMarks count (table.take cut))

theorem length_encodeMark (mark : UInt32 × UInt64) : (encodeMark mark).length = 12 := by
  rw [encodeMark, List.length_append, length_leBytes, length_leBytes]

/-- A cut inside a mark leaves the bytes behind its client. -/
theorem holdsState_cut_mark (mark : UInt32 × UInt64) (tail : Bytes) (count : Nat) {cut : Nat}
    (hcut : cut < 12) :
    HoldsState (afterMarks (count + 1) ((encodeMark mark ++ tail).take cut))
      ↔ mark.2.toNat % 2 ^ 32 + 8 ≤ cut := by
  have hlength : ((encodeMark mark ++ tail).take cut).length = cut := by
    rw [List.length_take, List.length_append, length_encodeMark]
    omega
  rw [afterMarks_succ, hlength, if_neg (Nat.not_le.mpr hcut)]
  by_cases hfour : 4 ≤ cut
  · have hleft : ((encodeMark mark ++ tail).take cut).drop 4
        = (leBytes 8 mark.2.toNat).take (cut - 4) := by
      rw [List.take_append_of_le_length (by rw [length_encodeMark]; omega), encodeMark,
        List.drop_take, List.drop_left' (length_leBytes 4 _)]
    have hseq : 4 ≤ cut - 4 → leNat (((leBytes 8 mark.2.toNat).take (cut - 4)).take 4)
        = mark.2.toNat % 2 ^ 32 := by
      intro hle
      rw [List.take_take, Nat.min_eq_left hle]
      exact leNat_leBytes_mod 4 mark.2.toNat
    rw [if_pos hfour, hleft, HoldsState, List.length_take, length_leBytes,
      Nat.min_eq_left (by omega)]
    by_cases height : 4 ≤ cut - 4
    · rw [hseq height, and_iff_right height]
      omega
    · exact iff_of_false (fun hholds => height hholds.1) (by omega)
  · rw [if_neg hfour, HoldsState, hlength]
    omega

theorem noCutHolds_succ (mark : UInt32 × UInt64) (tail : Bytes) (count : Nat) :
    NoCutHolds (count + 1) (encodeMark mark ++ tail)
      ↔ 3 < mark.2.toNat % 2 ^ 32 ∧ NoCutHolds count tail := by
  have hlength : (encodeMark mark ++ tail).length = tail.length + 12 := by
    rw [List.length_append, length_encodeMark, Nat.add_comm]
  have hbehind : ∀ cut, cut < tail.length →
      afterMarks (count + 1) ((encodeMark mark ++ tail).take (cut + 12))
        = afterMarks count (tail.take cut) := by
    intro cut hcut
    have hlong : 12 ≤ ((encodeMark mark ++ tail).take (cut + 12)).length := by
      rw [List.length_take, hlength]
      omega
    rw [afterMarks_succ, if_pos hlong, List.drop_take, List.drop_left' (length_encodeMark mark),
      Nat.add_sub_cancel]
  constructor
  · intro hno
    refine ⟨?_, fun cut hcut => ?_⟩
    · by_contra hle
      refine hno (mark.2.toNat % 2 ^ 32 + 8) (by omega) ?_
      exact (holdsState_cut_mark mark tail count (by omega)).mpr (Nat.le_refl _)
    · rw [← hbehind cut hcut]
      exact hno (cut + 12) (by omega)
  · rintro ⟨hseq, hno⟩ cut hcut
    by_cases hinside : cut < 12
    · rw [holdsState_cut_mark mark tail count hinside]
      omega
    · obtain ⟨cut, rfl⟩ := Nat.exists_eq_add_of_le' (Nat.not_lt.mp hinside)
      rw [hbehind cut (by omega)]
      exact hno cut (by omega)

/-- Marks with a number that is not read as a short length, and no state behind them. -/
theorem noCutHolds_flatMap (marks : List (UInt32 × UInt64)) (tail : Bytes) :
    NoCutHolds marks.length (marks.flatMap encodeMark ++ tail)
      ↔ (∀ mark ∈ marks, 3 < mark.2.toNat % 2 ^ 32) ∧ NoCutHolds 0 tail := by
  induction marks with
  | nil => simp
  | cons mark marks ih =>
      rw [List.flatMap_cons, List.append_assoc, List.length_cons, noCutHolds_succ, ih,
        List.forall_mem_cons, and_assoc]

/-- A length and what follows: every cut is too short if nothing follows behind the end. -/
theorem noCutHolds_zero {tail : Bytes} :
    NoCutHolds 0 tail ↔ tail.length ≤ leNat (tail.take 4) + 4 := by
  have hholds : ∀ cut, cut < tail.length → 4 ≤ cut →
      (HoldsState (afterMarks 0 (tail.take cut)) ↔ leNat (tail.take 4) + 4 ≤ cut) := by
    intro cut hcut hle
    rw [afterMarks_zero, HoldsState, List.take_take, Nat.min_eq_left hle, List.length_take,
      Nat.min_eq_left (by omega), and_iff_right hle]
  constructor
  · intro hno
    by_contra hlong
    exact hno _ (Nat.not_le.mp hlong) ((hholds _ (Nat.not_le.mp hlong) (by omega)).mpr (Nat.le_refl _))
  · intro hshort cut hcut
    by_cases hle : 4 ≤ cut
    · rw [hholds cut hcut hle]
      omega
    · rw [afterMarks_zero, HoldsState, List.length_take]
      omega

/-! ### Clients in order -/

theorem pairwise_toList (marks : BTreeMap UInt32 UInt64) :
    (marks.toList.map fun mark => mark.1.toNat).Pairwise (· < ·) := by
  rw [List.pairwise_map]
  refine Std.ExtTreeMap.ordered_keys_toList.imp fun {first second} hlt => ?_
  exact UInt32.lt_iff_toNat_lt.mp (Std.compare_eq_lt.mp hlt)

/-- The table has at most one mark more than its count can say, and then the last client is the
largest there is. -/
theorem exists_last_mark {marks : BTreeMap UInt32 UInt64} (hsize : 2 ^ 32 ≤ marks.size) :
    ∃ last : UInt32 × UInt64, marks.toList = marks.toList.take (2 ^ 32 - 1) ++ [last]
      ∧ last.1.toNat = 2 ^ 32 - 1 := by
  have hsorted := pairwise_toList marks
  have hbelow : ∀ index (hindex : index < marks.toList.length),
      index ≤ (marks.toList[index]).1.toNat := by
    intro index hindex
    induction index with
    | zero => exact Nat.zero_le _
    | succ index ih =>
        have hlt := List.pairwise_iff_getElem.mp hsorted index (index + 1)
          (by rw [List.length_map]; omega) (by rw [List.length_map]; omega) (Nat.lt_succ_self _)
        rw [List.getElem_map, List.getElem_map] at hlt
        exact Nat.lt_of_le_of_lt (ih (by omega)) hlt
  rw [← Std.ExtTreeMap.length_toList] at hsize
  have hlength : marks.toList.length = 2 ^ 32 := by
    by_contra hne
    have hle := hbelow (2 ^ 32) (by omega)
    exact absurd (UInt32.toNat_lt _) (Nat.not_lt.mpr hle)
  have hlast : 2 ^ 32 - 1 < marks.toList.length := by omega
  refine ⟨marks.toList[2 ^ 32 - 1], ?_, ?_⟩
  · calc marks.toList
        = marks.toList.take (2 ^ 32 - 1) ++ marks.toList.drop (2 ^ 32 - 1) :=
          (List.take_append_drop _ _).symm
      _ = marks.toList.take (2 ^ 32 - 1) ++ [marks.toList[2 ^ 32 - 1]] := by
          rw [List.drop_eq_getElem_cons hlast, List.drop_of_length_le (by omega)]
  · have hle := hbelow _ hlast
    have hlt := UInt32.toNat_lt (marks.toList[2 ^ 32 - 1]).1
    omega

/-! ### Which cuts are rejected -/

theorem length_lengthBytes (length : Nat) : (lengthBytes 4 length).length = 4 := length_leBytes 4 _

theorem leNat_lengthBytes (length : Nat) : leNat (lengthBytes 4 length) = min length (2 ^ 32 - 1) :=
  leNat_leBytes (Nat.lt_of_le_of_lt (Nat.min_le_right _ _) (by decide))

/-- The mark of a client as the snapshot's reader sees it, and the state behind the table. -/
def table (core : Core S) : Bytes :=
  core.applied.toList.flatMap encodeMark ++
    (lengthBytes 4 (StateMachine.snapshot core.state).length ++ StateMachine.snapshot core.state)

theorem noCutHolds_table (core : Core S) :
    NoCutHolds (min core.applied.size (2 ^ 32 - 1)) core.table
      ↔ (∀ mark ∈ core.applied.toList.take (2 ^ 32 - 1), 3 < mark.2.toNat % 2 ^ 32)
        ∧ (StateMachine.snapshot core.state).length + (if core.applied.size < 2 ^ 32 then 0 else 12)
          < 2 ^ 32 := by
  generalize hstate : StateMachine.snapshot core.state = state
  have hlength := @Std.ExtTreeMap.length_toList _ _ _ core.applied _
  have hfield := length_lengthBytes state.length
  by_cases hsize : core.applied.size < 2 ^ 32
  · have htail : leNat ((lengthBytes 4 state.length ++ state).take 4) = min state.length (2 ^ 32 - 1) := by
      rw [List.take_left' hfield, leNat_lengthBytes]
    rw [if_pos hsize, Nat.min_eq_left (by omega), List.take_of_length_le (by omega), ← hlength, table,
      hstate, noCutHolds_flatMap, noCutHolds_zero, htail, List.length_append, hfield]
    refine and_congr_right fun _ => ?_
    omega
  · obtain ⟨last, hmarks, hclient⟩ := exists_last_mark (Nat.not_lt.mp hsize)
    have hcount : (core.applied.toList.take (2 ^ 32 - 1)).length = 2 ^ 32 - 1 := by
      rw [List.length_take]
      omega
    have htail : leNat ((encodeMark last ++ (lengthBytes 4 state.length ++ state)).take 4)
        = 2 ^ 32 - 1 := by
      rw [encodeMark, List.append_assoc, List.take_left' (length_leBytes 4 _),
        leNat_leBytes (UInt32.toNat_lt _), hclient]
    have htable : core.table = (core.applied.toList.take (2 ^ 32 - 1)).flatMap encodeMark
        ++ (encodeMark last ++ (lengthBytes 4 state.length ++ state)) := by
      calc core.table
          = (core.applied.toList.take (2 ^ 32 - 1) ++ [last]).flatMap encodeMark
              ++ (lengthBytes 4 state.length ++ state) := by rw [table, hstate, ← hmarks]
        _ = _ := by rw [List.flatMap_append, List.flatMap_singleton, List.append_assoc]
    generalize core.applied.toList.take (2 ^ 32 - 1) = front at hcount htable
    rw [if_neg hsize, Nat.min_eq_right (by omega), htable, ← hcount, noCutHolds_flatMap,
      noCutHolds_zero, htail, List.length_append, List.length_append, length_encodeMark, hfield]
    refine and_congr_right fun _ => ?_
    omega

/-- Bytes are rejected by every engine, or adopted by every engine. -/
theorem rejected_iff {input : Bytes} :
    (∀ other : Engine S, other.loadSnapshot input = other.toCore) ↔ ofSnapshot S input = none := by
  constructor
  · intro hrejected
    cases hload : ofSnapshot S input with
    | none => rfl
    | some core =>
        have hsame := hrejected
          { core with lastTs := core.lastTs + 1, snapInterval := 1, opsSinceSnap := 0, stats := {} }
        rw [loadSnapshot_eq_getD, hload, Option.getD_some] at hsame
        have hlast : core.lastTs.toNat = (core.lastTs + 1).toNat :=
          congrArg (fun core => core.lastTs.toNat) hsame
        rw [UInt64.toNat_add] at hlast
        have hbound := core.lastTs.toNat_lt
        have hone : (1 : UInt64).toNat = 1 := rfl
        omega
  · intro hnone other
    rw [loadSnapshot_eq_getD, hnone, Option.getD_none]

/-- **Truncated snapshots.** Every cut of a snapshot is rejected by every engine exactly if no mark's
number ends in a value below four, and the state's length fits its field; where there is a mark for
every client id there are, the last one is read as the length. -/
theorem truncated_rejected_iff (engine : Engine S) :
    (∀ cut < engine.encodeSnapshot.length, ∀ other : Engine S,
        other.loadSnapshot (engine.encodeSnapshot.take cut) = other.toCore)
      ↔ (∀ mark ∈ engine.applied.toList.take (2 ^ 32 - 1), 3 < mark.2.toNat % 2 ^ 32)
        ∧ (StateMachine.snapshot engine.state).length
            + (if engine.applied.size < 2 ^ 32 then 0 else 12) < 2 ^ 32 := by
  have hencode : engine.encodeSnapshot
      = (leBytes 8 engine.lastTs.toNat ++ lengthBytes 4 engine.applied.size) ++ engine.table := by
    rw [encodeSnapshot, table, List.append_assoc]
  have hhead : (leBytes 8 engine.lastTs.toNat ++ lengthBytes 4 engine.applied.size).length = 12 := by
    rw [List.length_append, length_leBytes, length_lengthBytes]
  have hbehind : ∀ cut, (engine.encodeSnapshot.take (cut + 12)).drop 12 = engine.table.take cut := by
    intro cut
    rw [List.drop_take, hencode, List.drop_left' hhead, Nat.add_sub_cancel]
  have hcount : ∀ cut, leNat (((engine.encodeSnapshot.take (cut + 12)).drop 8).take 4)
      = min engine.applied.size (2 ^ 32 - 1) := by
    intro cut
    rw [List.drop_take, List.take_take, Nat.min_eq_left (by omega), hencode, List.append_assoc,
      List.drop_left' (length_leBytes 8 _), List.take_left' (length_lengthBytes _), leNat_lengthBytes]
  have hlength : engine.encodeSnapshot.length = engine.table.length + 12 := by
    rw [hencode, List.length_append, hhead, Nat.add_comm]
  have hcut : ∀ cut, cut < engine.table.length →
      (ofSnapshot S (engine.encodeSnapshot.take (cut + 12)) = none
        ↔ ¬ HoldsState (afterMarks (min engine.applied.size (2 ^ 32 - 1)) (engine.table.take cut))) := by
    intro cut hcut
    have hlong : 12 ≤ (engine.encodeSnapshot.take (cut + 12)).length := by
      rw [List.length_take]
      omega
    rw [← Option.not_isSome_iff_eq_none, isSome_ofSnapshot, hbehind, hcount, and_iff_right hlong]
  rw [← noCutHolds_table]
  constructor
  · intro hrejected cut hlt
    exact (hcut cut hlt).mp (rejected_iff.mp (hrejected (cut + 12) (by omega)))
  · intro hno cut hlt
    refine rejected_iff.mpr ?_
    by_cases hshort : cut < 12
    · rw [← Option.not_isSome_iff_eq_none, isSome_ofSnapshot, List.length_take]
      omega
    · obtain ⟨cut, rfl⟩ := Nat.exists_eq_add_of_le' (Nat.not_lt.mp hshort)
      exact (hcut cut (by omega)).mpr (hno cut (by omega))

/-- One client that has sent one op, and nothing stored. -/
def oneOp : Engine KvStore :=
  { Engine.create 1 with applied := (∅ : BTreeMap UInt32 UInt64).insert 7 1 }

/-- Cut five bytes into the mark's number, the snapshot is adopted without the client. -/
theorem truncated_adopted :
    let input := oneOp.encodeSnapshot.take 21
    21 < oneOp.encodeSnapshot.length ∧ oneOp.loadSnapshot input ≠ oneOp.toCore
      ∧ (oneOp.loadSnapshot input).applied[(7 : UInt32)]? = none := by
  decide +kernel

end Core

/-! ### Importing a state -/

section Import

variable {S : Type} [StateMachine S]

/-- Nothing of the other core is lost: it is that core, or what further records make of it. -/
def Core.Keeps (core other : Core S) : Prop :=
  ∃ records, core = (dedup S).deliverAll other records

theorem Core.Keeps.refl (core : Core S) : core.Keeps core := ⟨[], rfl⟩

end Import

end OneBarrier
