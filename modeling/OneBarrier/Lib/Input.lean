import OneBarrier.Lib.Reader

/-!
# Blocking reads with a timeout

What a buffered reader meets on a connection: bytes, reads that time out between them, and the end
of the stream. A read that fails has consumed what it read, and what it read is lost. A read looks
no further than what it consumes, unless it runs into the end of the stream.
-/

namespace Input

open Wire

/-- The bytes still to come, with a timeout wherever one falls; the end of the list is the end of
the stream. -/
abbrev Source := List (Option UInt8)

/-- How a read can fail. `capacity` is an allocation that is not made: the panic above `isize::MAX`, or
the abort of the process when the allocator refuses. -/
inductive Failure where
  | timeout
  | unexpectedEof
  | invalidData
  | capacity
  deriving DecidableEq

/-- How many bytes an allocation can have: none above `isize::MAX`, and none more than a size that is
refused. -/
structure Allocator where
  Refuses : Nat → Prop
  decidable : DecidablePred Refuses
  above : ∀ {size}, 2 ^ 63 ≤ size → Refuses size
  larger : ∀ {size other}, Refuses size → size ≤ other → Refuses other

instance (alloc : Allocator) : DecidablePred alloc.Refuses := alloc.decidable

/-- All of the address space. -/
def Allocator.whole : Allocator where
  Refuses size := 2 ^ 63 ≤ size
  decidable size := Nat.decLe (2 ^ 63) size
  above := id
  larger := Nat.le_trans

/-- So many bytes and no more. -/
def Allocator.upTo (limit : Nat) : Allocator where
  Refuses size := min (limit + 1) (2 ^ 63) ≤ size
  decidable size := Nat.decLe (min (limit + 1) (2 ^ 63)) size
  above := Nat.le_trans (Nat.min_le_right _ _)
  larger := Nat.le_trans

abbrev Reading := StateM Source

abbrev Fallible := ExceptT Failure Reading

/-- The stream as sent, without the timeouts. -/
def Source.sent (source : Source) : Bytes := source.filterMap id

/-- The stream as it arrives without any timeout. -/
def arrive (input : Bytes) : Source := input.map some

/-- `BufRead::read_until(b'\n')`: up to and including the newline, or what is left at the end of the
stream. -/
def readUntilNewline : Fallible Bytes
  | [] => (.ok [], [])
  | none :: rest => (.error .timeout, rest)
  | some byte :: rest =>
      if byte = 10 then (.ok [byte], rest)
      else
        match readUntilNewline rest with
        | (.ok line, rest) => (.ok (byte :: line), rest)
        | (.error failure, rest) => (.error failure, rest)

/-- `Read::read_exact`. -/
def readExact : Nat → Fallible Bytes
  | 0, source => (.ok [], source)
  | _ + 1, [] => (.error .unexpectedEof, [])
  | _ + 1, none :: rest => (.error .timeout, rest)
  | count + 1, some byte :: rest =>
      match readExact count rest with
      | (.ok input, rest) => (.ok (byte :: input), rest)
      | (.error failure, rest) => (.error failure, rest)

/-- A reader consumes a prefix, and does not look behind it while something is left there. -/
structure Local {α : Type} (reader : Reading α) : Prop where
  independent : ∀ source, ∃ consumed, source = consumed ++ (reader source).2 ∧
    ((reader source).2 ≠ [] → ∀ other, reader (consumed ++ other) = ((reader source).1, other))

namespace Local

variable {α β : Type}

theorem pure (value : α) : Local (pure value : Reading α) :=
  ⟨fun _ => ⟨[], rfl, fun _ _ => rfl⟩⟩

theorem bind {reader : Reading α} {next : α → Reading β} (hreader : Local reader)
    (hnext : ∀ value, Local (next value)) : Local (reader >>= next) := by
  refine ⟨fun source => ?_⟩
  obtain ⟨first, hfirst, hlocal⟩ := hreader.independent source
  obtain ⟨second, hsecond, hlater⟩ :=
    (hnext (reader source).1).independent (reader source).2
  have hrun : (reader >>= next) source = next (reader source).1 (reader source).2 := rfl
  refine ⟨first ++ second, ?_, ?_⟩
  · rw [hrun, List.append_assoc, ← hsecond, ← hfirst]
  · intro hrest other
    rw [hrun] at hrest ⊢
    have hmiddle : (reader source).2 ≠ [] := by
      intro hnil
      rw [hnil] at hsecond hrest
      exact hrest (List.append_eq_nil_iff.mp hsecond.symm).2
    change next (reader (first ++ second ++ other)).1 (reader (first ++ second ++ other)).2 = _
    rw [List.append_assoc, hlocal hmiddle]
    exact hlater hrest other

theorem readUntilNewline : Local Input.readUntilNewline := by
  refine ⟨fun source => ?_⟩
  induction source with
  | nil => exact ⟨[], rfl, fun hrest => absurd rfl hrest⟩
  | cons item rest ih =>
      cases item with
      | none => exact ⟨[none], rfl, fun _ _ => rfl⟩
      | some byte =>
          by_cases hbyte : byte = 10
          · simp only [Input.readUntilNewline, if_pos hbyte]
            exact ⟨[some byte], rfl, fun _ _ => by simp [Input.readUntilNewline, hbyte]⟩
          · obtain ⟨consumed, hconsumed, hlocal⟩ := ih
            simp only [Input.readUntilNewline, if_neg hbyte]
            generalize Input.readUntilNewline rest = result at hconsumed hlocal
            obtain ⟨outcome, left⟩ := result
            refine ⟨some byte :: consumed, ?_, ?_⟩
            · cases outcome <;> exact congrArg _ hconsumed
            · intro hleft other
              have hother := hlocal (by cases outcome <;> exact hleft) other
              simp only [List.cons_append, Input.readUntilNewline, if_neg hbyte, hother]
              cases outcome <;> rfl

theorem readExact (count : Nat) : Local (Input.readExact count) := by
  refine ⟨fun source => ?_⟩
  induction count generalizing source with
  | zero => exact ⟨[], rfl, fun _ _ => rfl⟩
  | succ count ih =>
      match source with
      | [] => exact ⟨[], rfl, fun hrest => absurd rfl hrest⟩
      | none :: rest => exact ⟨[none], rfl, fun _ _ => rfl⟩
      | some byte :: rest =>
          obtain ⟨consumed, hconsumed, hlocal⟩ := ih rest
          simp only [Input.readExact]
          generalize Input.readExact count rest = result at hconsumed hlocal
          obtain ⟨outcome, left⟩ := result
          refine ⟨some byte :: consumed, ?_, ?_⟩
          · cases outcome <;> exact congrArg _ hconsumed
          · intro hleft other
            have hother := hlocal (by cases outcome <;> exact hleft) other
            simp only [List.cons_append, Input.readExact, hother]
            cases outcome <;> rfl

theorem throw (failure : Failure) : Local (throw failure : Fallible α) :=
  pure (Except.error failure)

theorem fallible_pure (value : α) : Local (Pure.pure value : Fallible α) :=
  pure (Except.ok value)

theorem fallible_bind {reader : Fallible α} {next : α → Fallible β} (hreader : Local reader)
    (hnext : ∀ value, Local (next value)) : Local (reader >>= next : Fallible β) := by
  change Local (Bind.bind (m := Reading) reader (ExceptT.bindCont next))
  refine bind hreader fun outcome => ?_
  cases outcome with
  | ok value => exact hnext value
  | error failure => exact pure _

theorem length_le {reader : Reading α} (hreader : Local reader) (source : Source) :
    (reader source).2.length ≤ source.length := by
  obtain ⟨consumed, hconsumed, -⟩ := hreader.independent source
  have hlength := congrArg List.length hconsumed
  rw [List.length_append] at hlength
  omega

end Local

/-- A reader takes something off the source, unless there is nothing. -/
def Advances {α : Type} (reader : Reading α) : Prop :=
  ∀ source, source ≠ [] → (reader source).2.length < source.length

namespace Advances

theorem readUntilNewline : Advances Input.readUntilNewline := by
  intro source hsource
  match source with
  | [] => exact absurd rfl hsource
  | none :: rest => exact Nat.lt_succ_self _
  | some byte :: rest =>
      have hrest := Local.readUntilNewline.length_le rest
      simp only [Input.readUntilNewline]
      split
      · exact Nat.lt_succ_self _
      · generalize Input.readUntilNewline rest = result at hrest
        obtain ⟨outcome, left⟩ := result
        cases outcome <;> exact Nat.lt_succ_of_le hrest

end Advances

/-- A reader whose first step takes something takes something. -/
theorem frames_bind {α β : Type} {reader : Reading α} {next : α → Reading β}
    (hreader : Local reader ∧ Advances reader) (hnext : ∀ value, Local (next value)) :
    Local (reader >>= next) ∧ Advances (reader >>= next) := by
  refine ⟨hreader.1.bind hnext, fun source hsource => ?_⟩
  exact Nat.lt_of_le_of_lt ((hnext (reader source).1).length_le (reader source).2)
    (hreader.2 source hsource)

theorem frames_fallible_bind {α β : Type} {reader : Fallible α} {next : α → Fallible β}
    (hreader : Local reader ∧ Advances reader) (hnext : ∀ value, Local (next value)) :
    Local (reader >>= next : Fallible β) ∧ Advances (reader >>= next : Fallible β) := by
  change Local (Bind.bind (m := Reading) reader (ExceptT.bindCont next))
    ∧ Advances (Bind.bind (m := Reading) reader (ExceptT.bindCont next))
  refine frames_bind hreader fun outcome => ?_
  cases outcome with
  | ok value => exact hnext value
  | error failure => exact Local.pure _

theorem frames_readUntilNewline :
    Local readUntilNewline ∧ Advances readUntilNewline :=
  ⟨Local.readUntilNewline, Advances.readUntilNewline⟩

/-! ### Reading what has arrived -/

theorem arrive_append (first second : Bytes) :
    arrive (first ++ second) = arrive first ++ arrive second := List.map_append

theorem arrive_line (line rest : Bytes) :
    arrive (line ++ 10 :: rest) = arrive line ++ some 10 :: arrive rest := List.map_append

theorem readUntilNewline_line {line : Bytes} (hline : 10 ∉ line) (rest : Source) :
    readUntilNewline (arrive line ++ some 10 :: rest) = (.ok (line ++ [10]), rest) := by
  induction line with
  | nil => rfl
  | cons byte line ih =>
      have hbyte : byte ≠ 10 := fun heq => hline (heq ▸ List.mem_cons_self)
      have hrest := ih fun hmem => hline (List.mem_cons_of_mem byte hmem)
      change readUntilNewline (some byte :: (arrive line ++ some 10 :: rest)) = _
      rw [readUntilNewline, if_neg hbyte, hrest]
      rfl

/-- At the end of the stream a line needs no terminator. -/
theorem readUntilNewline_end {line : Bytes} (hline : 10 ∉ line) :
    readUntilNewline (arrive line) = (.ok line, []) := by
  induction line with
  | nil => rfl
  | cons byte line ih =>
      have hbyte : byte ≠ 10 := fun heq => hline (heq ▸ List.mem_cons_self)
      have hrest := ih fun hmem => hline (List.mem_cons_of_mem byte hmem)
      change readUntilNewline (some byte :: arrive line) = _
      rw [readUntilNewline, if_neg hbyte, hrest]

theorem readExact_append (input : Bytes) (rest : Source) :
    readExact input.length (arrive input ++ rest) = (.ok input, rest) := by
  induction input with
  | nil => rfl
  | cons byte input ih =>
      change readExact (input.length + 1) (some byte :: (arrive input ++ rest)) = _
      rw [readExact, ih]

theorem readExact_short {input : Bytes} {count : Nat} (hshort : input.length < count) :
    readExact count (arrive input) = (.error .unexpectedEof, []) := by
  induction input generalizing count with
  | nil =>
      obtain ⟨count, rfl⟩ := Nat.exists_eq_succ_of_ne_zero (Nat.ne_of_gt hshort)
      rfl
  | cons byte input ih =>
      obtain ⟨count, rfl⟩ := Nat.exists_eq_succ_of_ne_zero (Nat.ne_of_gt (Nat.zero_lt_of_lt hshort))
      change readExact (count + 1) (some byte :: arrive input) = _
      rw [readExact, ih (Nat.lt_of_succ_lt_succ hshort)]

theorem bind_of_ok {α β : Type} {reader : Fallible α} {next : α → Fallible β} {source rest : Source}
    {value : α} (hreader : reader source = (.ok value, rest)) :
    (reader >>= next : Fallible β) source = next value rest := by
  change ExceptT.bindCont next (reader source).1 (reader source).2 = _
  rw [hreader]
  rfl

theorem bind_of_error {α β : Type} {reader : Fallible α} {next : α → Fallible β} {source : Source}
    {failure : Failure} (hreader : (reader source).1 = .error failure) :
    ((reader >>= next : Fallible β) source).1 = .error failure := by
  change (ExceptT.bindCont next (reader source).1 (reader source).2).1 = _
  rw [hreader]
  rfl

theorem run_bind_of_eq {α β : Type} {reader : Fallible α} {next : Except Failure α → Reading β}
    {source rest : Source} {outcome : Except Failure α} (hreader : reader source = (outcome, rest)) :
    (reader.run >>= next : Reading β) source = next outcome rest := by
  change next (reader source).1 (reader source).2 = _
  rw [hreader]

/-- The read has failed, and not by a timeout. -/
def Aborts {α : Type} (result : Except Failure α × Source) : Prop :=
  ∃ failure, result.1 = .error failure ∧ failure ≠ .timeout

theorem aborts_bind {α β : Type} {reader : Fallible α} {next : α → Fallible β} {source : Source}
    (hreader : Aborts (reader source)) : Aborts ((reader >>= next : Fallible β) source) := by
  obtain ⟨failure, hresult, hfailure⟩ := hreader
  refine ⟨failure, ?_, hfailure⟩
  change (ExceptT.bindCont next (reader source).1 (reader source).2).1 = _
  rw [hresult]
  rfl

theorem aborts_bind_of_ok {α β : Type} {reader : Fallible α} {next : α → Fallible β}
    {source rest : Source} {value : α} (hreader : reader source = (.ok value, rest))
    (hnext : Aborts (next value rest)) : Aborts ((reader >>= next : Fallible β) source) := by
  rw [bind_of_ok hreader]
  exact hnext

theorem aborts_readExact {input : Bytes} {count : Nat} (hshort : input.length < count) :
    Aborts (readExact count (arrive input)) := by
  rw [readExact_short hshort]
  exact ⟨.unexpectedEof, rfl, Failure.noConfusion⟩

/-- The read has failed, not by a timeout, and by a panic only if `wide`. -/
def Stops {α : Type} (wide : Prop) (result : Except Failure α × Source) : Prop :=
  ∃ failure, result.1 = .error failure ∧ failure ≠ .timeout ∧ (failure = .capacity → wide)

theorem Stops.aborts {α : Type} {wide : Prop} {result : Except Failure α × Source}
    (hstops : Stops wide result) : Aborts result := by
  obtain ⟨failure, hresult, hfailure, -⟩ := hstops
  exact ⟨failure, hresult, hfailure⟩

theorem Aborts.stops {α : Type} {wide : Prop} {result : Except Failure α × Source}
    (haborts : Aborts result) (hwide : wide) : Stops wide result := by
  obtain ⟨failure, hresult, hfailure⟩ := haborts
  exact ⟨failure, hresult, hfailure, fun _ => hwide⟩

theorem Stops.imp {α : Type} {wide wider : Prop} {result : Except Failure α × Source}
    (hstops : Stops wide result) (hwider : wide → wider) : Stops wider result := by
  obtain ⟨failure, hresult, hfailure, hcapacity⟩ := hstops
  exact ⟨failure, hresult, hfailure, fun hpanic => hwider (hcapacity hpanic)⟩

theorem stops_throw {α : Type} {wide : Prop} {failure : Failure} (htimeout : failure ≠ .timeout)
    (hcapacity : failure ≠ .capacity) (source : Source) :
    Stops wide ((throw failure : Fallible α) source) :=
  ⟨failure, rfl, htimeout, fun hpanic => absurd hpanic hcapacity⟩

theorem stops_bind {α β : Type} {wide : Prop} {reader : Fallible α} {next : α → Fallible β}
    {source : Source} (hreader : Stops wide (reader source)) :
    Stops wide ((reader >>= next : Fallible β) source) := by
  obtain ⟨failure, hresult, hkinds⟩ := hreader
  refine ⟨failure, ?_, hkinds⟩
  change (ExceptT.bindCont next (reader source).1 (reader source).2).1 = _
  rw [hresult]
  rfl

theorem stops_bind_of_ok {α β : Type} {wide : Prop} {reader : Fallible α} {next : α → Fallible β}
    {source rest : Source} {value : α} (hreader : reader source = (.ok value, rest))
    (hnext : Stops wide (next value rest)) : Stops wide ((reader >>= next : Fallible β) source) := by
  rw [bind_of_ok hreader]
  exact hnext

theorem stops_readExact {wide : Prop} {input : Bytes} {count : Nat} (hshort : input.length < count) :
    Stops wide (readExact count (arrive input)) := by
  rw [readExact_short hshort]
  exact ⟨.unexpectedEof, rfl, Failure.noConfusion, Failure.noConfusion⟩

end Input
