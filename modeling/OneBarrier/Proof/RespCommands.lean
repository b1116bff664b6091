import OneBarrier.Proof.RespReplies

/-!
# Commands read back

What a client encodes is read back command by command, whatever bytes the arguments have, as long as
they are allocated. Of a stream that is cut short the complete commands are read, and then its end
or an error: a count or a length that has lost digits still announces something, and what it announces
is not there.
-/

namespace OneBarrier.Resp

open Wire Input Utf8 Text

def bulkOf (arg : Bytes) : Bulk := { size := asBytes (toString arg.length), arg }

/-- `*N`, and `$len` in front of every argument. -/
def encode (args : List Bytes) : Bytes :=
  arrayBytes (asBytes (toString args.length)) (args.map bulkOf)

/-- The results of consecutive calls of `read_command`. -/
def calls (alloc : Allocator) : Nat → Source → List (Except Failure (Option (List Bytes))) × Source
  | 0, source => ([], source)
  | count + 1, source =>
      let later := calls alloc count (readCommandWith alloc source).2
      ((readCommandWith alloc source).1 :: later.1, later.2)

/-- The commands whose whole encoding is within the first `cut` bytes. -/
def completeWithin : Nat → List (List Bytes) → List (List Bytes)
  | _, [] => []
  | cut, args :: later =>
      if (encode args).length ≤ cut then args :: completeWithin (cut - (encode args).length) later
      else []

/-- The commands are read back, and take exactly their bytes; and of every proper prefix the complete
commands are read back, and behind them nothing or an error. -/
def ReadsBack (alloc : Allocator) (commands : List (List Bytes)) : Prop :=
  (∀ rest : Source, calls alloc commands.length (arrive (commands.flatMap encode) ++ rest)
      = (commands.map fun args => .ok (some args), rest))
    ∧ ∀ cut < (commands.flatMap encode).length,
        let complete := completeWithin cut commands
        ∃ last, (calls alloc (complete.length + 1) (arrive ((commands.flatMap encode).take cut))).1
            = (complete.map fun args => .ok (some args)) ++ [last]
          ∧ (last = .ok none ∨ last = .error .unexpectedEof ∨ last = .error .invalidData)

/-! ### One command -/

variable {alloc : Allocator}

theorem sizes_bulkOf (args : List Bytes) :
    ∀ bulk ∈ args.map bulkOf, Decimal bulk.size bulk.arg.length := by
  intro bulk hbulk
  obtain ⟨arg, -, rfl⟩ := List.mem_map.mp hbulk
  exact decimal_toString arg.length

theorem count_bulkOf (args : List Bytes) :
    Decimal (asBytes (toString args.length)) (args.map bulkOf).length := by
  rw [List.length_map]
  exact decimal_toString args.length

theorem readCommand_encode {args : List Bytes} (hnonempty : args ≠ []) (rest : Source) :
    (Aborts (readCommandWith alloc (arrive (encode args) ++ rest)) ∧ ¬ Allocated alloc args)
      ∨ (readCommandWith alloc (arrive (encode args) ++ rest) = (.ok (some args), rest)
        ∧ Allocated alloc args) := by
  have hsent := @readCommandWith_sent alloc ⟨asBytes (toString args.length), args.map bulkOf, count_bulkOf args,
    sizes_bulkOf args, by simpa using hnonempty⟩ rest
  have hargs : (args.map bulkOf).map Bulk.arg = args := by
    rw [List.map_map]
    exact List.map_id args
  rwa [Sent.args, hargs] at hsent

/-- A proper prefix of a count that is not zero announces something. -/
theorem number_ne_zero_of_lead {value : Nat} (hvalue : value ≠ 0) {digits : Bytes}
    (hdigits : digits <+: asBytes (toString value)) (hnonempty : digits ≠ []) : number digits ≠ 0 := by
  obtain ⟨first, later, rfl⟩ := List.exists_cons_of_ne_nil hnonempty
  intro hzero
  have hfirst : isDigit first = true := by
    have hall := List.all_eq_true.mp (decimal_toString value).digits
    exact hall first (hdigits.subset List.mem_cons_self)
  have hless : number [first] ≤ number (first :: later) := number_le_append [first] later
  have hhead : (asBytes (toString value)).head? = some first := by
    obtain ⟨more, hmore⟩ := hdigits
    rw [← hmore]
    rfl
  rw [hzero, number, List.foldl_cons, List.foldl_nil] at hless
  rw [isDigit_iff] at hfirst
  have heq : first = 48 := UInt8.toNat_inj.mp (by change first.toNat = 48; omega)
  exact head?_asBytes_toString hvalue (hhead.trans (congrArg some heq))

/-- A command cut short is not taken for another. -/
theorem readCommand_take_encode {args : List Bytes} (hnonempty : args ≠ []) (hfits : Allocated alloc args)
    {cut : Nat} (hcut : cut < (encode args).length) :
    (readCommandWith alloc (arrive ((encode args).take cut))).1 = .ok none
      ∨ (readCommandWith alloc (arrive ((encode args).take cut))).1 = .error .unexpectedEof
      ∨ (readCommandWith alloc (arrive ((encode args).take cut))).1 = .error .invalidData := by
  obtain hend | ⟨failure, hresult, htimeout, hcapacity⟩ | ⟨⟨digits, hdigits, hsome, hzero⟩, -⟩ :=
    readCommand_take (count_bulkOf args) (sizes_bulkOf args) hcut
  · exact .inl (congrArg Prod.fst hend)
  · have hnarrow : ¬ (alloc.Refuses ((args.map bulkOf).length * 24)
        ∨ ∃ bulk ∈ args.map bulkOf, alloc.Refuses (bulk.arg.length + 2)) := by
      rintro (hwide | ⟨bulk, hbulk, hwide⟩)
      · rw [List.length_map] at hwide
        exact hfits.1 hwide
      · obtain ⟨arg, harg, rfl⟩ := List.mem_map.mp hbulk
        exact hfits.2 arg harg hwide
    rw [show encode args = arrayBytes _ _ from rfl, hresult]
    cases failure with
    | timeout => exact absurd rfl htimeout
    | unexpectedEof => exact .inr (.inl rfl)
    | invalidData => exact .inr (.inr rfl)
    | capacity => exact absurd (hcapacity rfl) hnarrow
  · have hlength : args.length ≠ 0 := fun hlength => hnonempty (List.length_eq_zero_iff.mp hlength)
    exact absurd hzero (number_ne_zero_of_lead hlength hdigits hsome)

/-! ### A stream of commands -/

theorem calls_encode {commands : List (List Bytes)} (hnonempty : ∀ args ∈ commands, args ≠ [])
    (hfits : ∀ args ∈ commands, Allocated alloc args) (rest : Source) :
    calls alloc commands.length (arrive (commands.flatMap encode) ++ rest)
      = (commands.map fun args => .ok (some args), rest) := by
  induction commands with
  | nil => rfl
  | cons args later ih =>
      obtain ⟨hargs, hlater⟩ := List.forall_mem_cons.mp hnonempty
      obtain ⟨hfit, hfits⟩ := List.forall_mem_cons.mp hfits
      obtain ⟨-, hnot⟩ | ⟨hread, -⟩ := readCommand_encode hargs (arrive (later.flatMap encode) ++ rest)
      · exact absurd hfit hnot
      · rw [List.flatMap_cons, arrive_append, List.append_assoc, List.length_cons, calls]
        simp only [hread, ih hlater hfits, List.map_cons]

theorem calls_take {commands : List (List Bytes)} (hnonempty : ∀ args ∈ commands, args ≠ [])
    (hfits : ∀ args ∈ commands, Allocated alloc args) {cut : Nat}
    (hcut : cut < (commands.flatMap encode).length) :
    ∃ last, (calls alloc ((completeWithin cut commands).length + 1)
          (arrive ((commands.flatMap encode).take cut))).1
        = ((completeWithin cut commands).map fun args => .ok (some args)) ++ [last]
      ∧ (last = .ok none ∨ last = .error .unexpectedEof ∨ last = .error .invalidData) := by
  induction commands generalizing cut with
  | nil => exact absurd hcut (Nat.not_lt_zero cut)
  | cons args later ih =>
      obtain ⟨hargs, hlater⟩ := List.forall_mem_cons.mp hnonempty
      obtain ⟨hfit, hfits⟩ := List.forall_mem_cons.mp hfits
      rw [List.flatMap_cons, List.length_append] at hcut
      rw [List.flatMap_cons, completeWithin]
      split
      · rename_i hwhole
        obtain ⟨more, rfl⟩ := Nat.exists_eq_add_of_le hwhole
        obtain ⟨last, hcalls, hlast⟩ := ih hlater hfits (Nat.lt_of_add_lt_add_left hcut)
        obtain ⟨-, hnot⟩ | ⟨hread, -⟩ :=
          readCommand_encode hargs (arrive ((later.flatMap encode).take more))
        · exact absurd hfit hnot
        · refine ⟨last, ?_, hlast⟩
          rw [Nat.add_sub_cancel_left, List.take_length_add_append, arrive_append, List.length_cons, calls]
          simp only [hread, hcalls, List.map_cons, List.cons_append]
      · rename_i hshort
        have hbefore := Nat.not_le.mp hshort
        refine ⟨_, ?_, readCommand_take_encode hargs hfit hbefore⟩
        rw [List.take_append_of_le_length (Nat.le_of_lt hbefore)]
        rfl

/-- **Commands are read back exactly if they are allocated**, whatever the allocator refuses. -/
theorem readsBack_iff (alloc : Allocator) {commands : List (List Bytes)}
    (hnonempty : ∀ args ∈ commands, args ≠ []) :
    ReadsBack alloc commands ↔ ∀ args ∈ commands, Allocated alloc args := by
  constructor
  · rintro ⟨hwhole, -⟩
    have hcalls := hwhole []
    clear hwhole
    induction commands with
    | nil => exact fun args hargs => by cases hargs
    | cons args later ih =>
        obtain ⟨hargs, hlater⟩ := List.forall_mem_cons.mp hnonempty
        rw [List.flatMap_cons, arrive_append, List.append_assoc, List.length_cons, calls,
          List.map_cons] at hcalls
        obtain ⟨hfirst, hrest⟩ := List.cons.inj (congrArg Prod.fst hcalls)
        obtain ⟨⟨failure, hresult, -⟩, -⟩ | ⟨hread, hfit⟩ :=
          readCommand_encode hargs (arrive (later.flatMap encode) ++ [])
        · rw [hresult] at hfirst
          cases hfirst
        · refine List.forall_mem_cons.mpr ⟨hfit, ih hlater (Prod.ext ?_ ?_)⟩
          · rw [hread] at hrest
            exact hrest
          · have hleft := congrArg Prod.snd hcalls
            dsimp only at hleft
            rw [hread] at hleft
            exact hleft
  · intro hfits
    exact ⟨calls_encode hnonempty hfits, fun cut hcut => calls_take hnonempty hfits hcut⟩

/-- Arguments that look like headers, or are none at all, where there is just memory enough. -/
theorem readsBack_headers :
    ReadsBack (.upTo 72) [[asBytes "SET", asBytes "$3\r\n*1\r\n", [0, 255]], [[]]] :=
  (readsBack_iff (.upTo 72) (List.forall_mem_cons.mpr ⟨List.cons_ne_nil _ _,
    List.forall_mem_singleton.mpr (List.cons_ne_nil _ _)⟩)).mpr (by decide +kernel)

/-- The header of an argument two bytes short of what cannot be allocated any more. -/
def longHeader : Bytes := asBytes "*1\r\n$9223372036854775806\r\n"

/-- What is left behind the count. -/
def longSize : Bytes := asBytes "$9223372036854775806\r\n"

theorem readBulkWith_longSize (alloc : Allocator) :
    (readBulkWith alloc (arrive longSize)).1 = .error .capacity := by
  have hline : readLine (arrive longSize)
      = (.ok (some (36 :: asBytes "9223372036854775806")), []) :=
    Prod.ext (by decide +kernel) (by decide +kernel)
  have hlength : parseInt (asBytes "9223372036854775806") [] = (.ok 9223372036854775806, []) :=
    Prod.ext (by decide +kernel) (by decide +kernel)
  have hrefused : alloc.Refuses ((9223372036854775806 : Int64).toInt.toNat + 2) :=
    alloc.above (by decide)
  rw [readBulkWith, bind_of_ok hline]
  dsimp only
  rw [if_neg (by decide)]
  refine (congrArg Prod.fst (bind_of_ok hlength)).trans ?_
  rw [if_neg (by decide), if_pos hrefused]
  rfl

theorem readCommandWith_longHeader (alloc : Allocator) :
    (readCommandWith alloc (arrive longHeader)).1 = .error .capacity := by
  have hline : readLine (arrive longHeader) = (.ok (some [42, 49]), arrive longSize) :=
    Prod.ext (by decide +kernel) (by decide +kernel)
  have hcount : parseInt [49] (arrive longSize) = (.ok 1, arrive longSize) :=
    Prod.ext (by decide +kernel) (by decide +kernel)
  rw [readCommandWith, bind_of_ok hline]
  dsimp only
  rw [if_neg (by decide), if_pos (by decide)]
  refine (congrArg Prod.fst (bind_of_ok hcount)).trans ?_
  rw [if_neg (by decide)]
  split
  · rfl
  · exact bind_of_error (bind_of_error (readBulkWith_longSize alloc))

theorem encode_long {arg : Bytes} (hlength : arg.length = 2 ^ 63 - 2) :
    encode [arg] = longHeader ++ (arg ++ [13, 10]) := by
  have hheader : (42 :: asBytes (toString 1) ++ [13])
      ++ 10 :: (36 :: asBytes (toString (2 ^ 63 - 2)) ++ [13] ++ [10]) = longHeader := by
    decide +kernel
  rw [encode, arrayBytes, List.map_singleton, List.flatMap_singleton, Bulk.bytes, bulkOf, hlength,
    List.length_singleton, ← hheader]
  simp only [List.append_assoc, List.cons_append, List.nil_append]

/-- **The header of a long argument, and then the end of the stream.** The length plus two is not
refused but allocated, and that panics, however much memory there is. -/
theorem long_argument_panics :
    ¬ ∃ alloc, ReadsBack alloc [[List.replicate (2 ^ 63 - 2) 0]] := by
  rintro ⟨alloc, -, hcut⟩
  generalize harg : List.replicate (2 ^ 63 - 2) (0 : UInt8) = arg at hcut
  have hlength : arg.length = 2 ^ 63 - 2 := harg ▸ List.length_replicate
  clear harg
  have hencode := encode_long hlength
  have hlong : longHeader.length < ([[arg]].flatMap encode).length := by
    rw [List.flatMap_singleton, hencode, List.length_append, List.length_append, List.length_cons]
    omega
  obtain ⟨last, hcalls, hlast⟩ := hcut longHeader.length hlong
  have hnone : completeWithin longHeader.length [[arg]] = [] := by
    rw [List.flatMap_singleton] at hlong
    rw [completeWithin, if_neg (Nat.not_le.mpr hlong)]
  rw [hnone, List.flatMap_singleton, hencode, List.take_left' rfl] at hcalls
  obtain rfl : Except.error Failure.capacity = last :=
    (readCommandWith_longHeader alloc).symm.trans (List.cons.inj hcalls).1
  rcases hlast with hlast | hlast | hlast <;> cases hlast

end OneBarrier.Resp
