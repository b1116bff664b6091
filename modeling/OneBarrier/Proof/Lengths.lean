import OneBarrier.Frontend.Resp
import OneBarrier.Frontend.Memcache
import OneBarrier.Frontend.Http

/-!
# Lengths that clients announce

Three parsers compute buffer sizes from numbers that clients send, and none of them checks the number
first. For every input: the sizes stay within the address space and a request is executed only with
values of the announced lengths exactly if the numbers on the way are within limits that are stated
here, and those that are no lengths at all do not come to a request.
-/

namespace Input

/-- What follows the next `n` bytes, if there are as many before a timeout or the end. -/
def skip : Nat → Source → Option Source
  | 0, source => some source
  | n + 1, some _ :: rest => skip n rest
  | _ + 1, _ => none

theorem readExact_of_skip {n : Nat} {source rest : Source} (hskip : skip n source = some rest) :
    ∃ input, readExact n source = (.ok input, rest) ∧ input.length = n := by
  fun_induction skip n source with
  | case1 source => exact ⟨[], by rw [readExact, Option.some.inj hskip], rfl⟩
  | case2 n byte rest' ih =>
      obtain ⟨input, hread, hlength⟩ := ih hskip
      exact ⟨byte :: input, by rw [readExact, hread], congrArg Nat.succ hlength⟩
  | case3 => cases hskip

/-- The read fails, and not by a panic. -/
def Fails {α : Type} (result : Except Failure α × Source) : Prop :=
  ∃ failure, result.1 = .error failure ∧ failure ≠ .capacity

theorem fails_of_skip {n : Nat} {source : Source} (hskip : skip n source = none) :
    Fails (readExact n source) := by
  fun_induction skip n source with
  | case1 => cases hskip
  | case2 n byte rest ih =>
      obtain ⟨failure, hread, hfailure⟩ := ih hskip
      refine ⟨failure, ?_, hfailure⟩
      rw [readExact]
      generalize readExact n rest = result at hread
      obtain ⟨outcome, left⟩ := result
      cases hread
      rfl
  | case3 n source hsource =>
      cases source with
      | nil => exact ⟨.unexpectedEof, rfl, Failure.noConfusion⟩
      | cons item rest =>
          cases item with
          | none => exact ⟨.timeout, rfl, Failure.noConfusion⟩
          | some byte => exact absurd rfl (hsource byte rest)

theorem fails_bind {α β : Type} {reader : Fallible α} {next : α → Fallible β} {source : Source}
    (hreader : Fails (reader source)) : Fails ((reader >>= next : Fallible β) source) := by
  obtain ⟨failure, hresult, hfailure⟩ := hreader
  exact ⟨failure, bind_of_error hresult, hfailure⟩

theorem bind_pure_of_ok {α β : Type} {reader : Fallible α} {source : Source} {value : α}
    (hreader : (reader source).1 = .ok value) (f : α → β) :
    ((reader >>= fun value => pure (f value) : Fallible β) source).1 = .ok (f value) := by
  change (ExceptT.bindCont (fun value => (pure (f value) : Fallible β)) (reader source).1
    (reader source).2).1 = _
  rw [hreader]
  rfl

/-- Two ways a line can be read: it is there, or the read fails. -/
theorem readUntilNewline_cases (source : Source) :
    (∃ line rest, readUntilNewline source = (.ok line, rest))
      ∨ Fails (readUntilNewline source) := by
  induction source with
  | nil => exact .inl ⟨[], [], rfl⟩
  | cons item rest ih =>
      cases item with
      | none => exact .inr ⟨.timeout, rfl, Failure.noConfusion⟩
      | some byte =>
          by_cases hbyte : byte = 10
          · exact .inl ⟨[byte], rest, by rw [readUntilNewline, if_pos hbyte]⟩
          · rcases ih with ⟨line, left, hread⟩ | ⟨failure, hread, hfailure⟩
            · exact .inl ⟨byte :: line, left, by rw [readUntilNewline, if_neg hbyte, hread]⟩
            · refine .inr ⟨failure, ?_, hfailure⟩
              rw [readUntilNewline, if_neg hbyte]
              generalize readUntilNewline rest = result at hread
              obtain ⟨outcome, left⟩ := result
              cases hread
              rfl

end Input

namespace Text

/-- What a decimal numeral stands for, however long it is. -/
def numeral (text : List Char) : Option Nat :=
  parseDigits (if text.head? = some '+' then text.tail else text)

theorem parseUsize_eq (text : List Char) :
    parseUsize text
      = (numeral text).bind fun value => if value < 2 ^ 64 then some value else none := by
  cases text with
  | nil => rfl
  | cons char digits =>
      by_cases hplus : char = '+'
      · subst hplus
        rfl
      · unfold parseUsize numeral
        rw [if_neg (by simpa using hplus)]
        split
        · rename_i heq
          exact absurd (List.cons.inj heq).1 hplus
        · rfl

/-- A number that fits is read as it stands; anything else is not a number. -/
theorem parseUsize_cases (text : List Char) :
    (∃ n, numeral text = some n ∧ n < 2 ^ 64 ∧ parseUsize text = some n)
      ∨ ((∀ n, numeral text = some n → 2 ^ 64 ≤ n) ∧ parseUsize text = none) := by
  rw [parseUsize_eq]
  cases numeral text with
  | none => exact .inr ⟨fun n hn => (by cases hn), rfl⟩
  | some n =>
      by_cases hfits : n < 2 ^ 64
      · exact .inl ⟨n, rfl, hfits, if_pos hfits⟩
      · refine .inr ⟨fun m hm => ?_, if_neg hfits⟩
        rw [← Option.some.inj hm]
        exact Nat.le_of_not_lt hfits

end Text

namespace OneBarrier

open Wire Input Utf8 Text

namespace Resp

/-- The number in a header, as far as it is one that fits. -/
def headerNumber (text : Bytes) : Option Int64 :=
  (fromUtf8 text).bind fun text => parseI64 (trim text.toList)

/-- The number of arguments that an array command announces, and what follows its first line. -/
def announcedCount (source : Source) : Option (Int64 × Source) :=
  match readLine source with
  | (.ok (some line), rest) =>
      if line.head? = some 42 then (headerNumber line.tail).map fun count => (count, rest) else none
  | _ => none

/-- The length that a bulk header announces, and what follows the header. -/
def announcedLength (source : Source) : Option (Int64 × Source) :=
  match readLine source with
  | (.ok (some header), rest) =>
      if header.head? = some 36 then (headerNumber header.tail).map fun length => (length, rest) else none
  | _ => none

/-- The lengths that the bulk headers of a command announce, up to the first that is missing or has
too little behind it, and whether all of them have what they announce. -/
def announcedLengths : Nat → Source → List Int64 × Bool
  | 0, _ => ([], true)
  | count + 1, source =>
      match announcedLength source with
      | none => ([], false)
      | some (length, rest) =>
          match skip (if length < 0 then 0 else length.toInt.toNat + 2) rest with
          | none => ([length], false)
          | some rest =>
              (length :: (announcedLengths count rest).1, (announcedLengths count rest).2)

/-- Reading a command does not ask for too much, and gives only arguments of the announced
lengths. -/
def Sound (source : Source) : Prop :=
  (readCommand source).1 ≠ .error .capacity
    ∧ ∀ count rest args, announcedCount source = some (count, rest) →
      (readCommand source).1 = .ok (some args) →
        args.map (fun arg => (arg.length : Int))
          = (announcedLengths count.toInt.toNat rest).1.map Int64.toInt

/-- The limits: as many arguments as fit in an allocation, lengths that fit with their terminator,
and no negative length in a command that is complete. -/
def Fitting (source : Source) : Prop :=
  ∀ count rest, announcedCount source = some (count, rest) →
    count.toInt * 24 < 2 ^ 63
      ∧ (∀ length ∈ (announcedLengths count.toInt.toNat rest).1, length.toInt + 2 < 2 ^ 63)
      ∧ ((announcedLengths count.toInt.toNat rest).2 = true →
        ∀ length ∈ (announcedLengths count.toInt.toNat rest).1, 0 ≤ length.toInt)

theorem readLine_cases (source : Source) :
    (∃ line rest, readLine source = (.ok line, rest)) ∨ Fails (readLine source) := by
  rcases readUntilNewline_cases source with ⟨raw, rest, hread⟩ | hfails
  · rw [readLine, bind_of_ok hread]
    split
    · exact .inl ⟨_, _, rfl⟩
    · exact .inl ⟨_, _, rfl⟩
  · exact .inr (fails_bind hfails)

theorem parseInt_eq (text : Bytes) (source : Source) :
    parseInt text source = ((headerNumber text).elim (.error .invalidData) .ok, source) := by
  rw [parseInt, headerNumber]
  generalize (fromUtf8 text).bind (fun text => parseI64 (trim text.toList)) = parsed
  cases parsed <;> rfl

/-- A bulk string behind its header. -/
def readBulkData (length : Int64) : Fallible Bytes :=
  if length < 0 then pure []
  else if 2 ^ 63 ≤ length.toInt.toNat + 2 then throw .capacity
  else do
    let buffer ← readExact (length.toInt.toNat + 2)
    pure (buffer.take length.toInt.toNat)

theorem readBulk_cases (source : Source) :
    (announcedLength source = none ∧ Fails (readBulk source))
      ∨ ∃ length rest, announcedLength source = some (length, rest)
        ∧ readBulk source = readBulkData length rest := by
  rcases readLine_cases source with ⟨line, rest, hline⟩ | hfails
  · rw [announcedLength, readBulk, readBulkWith, bind_of_ok hline, hline]
    cases line with
    | none => exact .inl ⟨rfl, .unexpectedEof, rfl, Failure.noConfusion⟩
    | some header =>
        dsimp only
        by_cases hmark : header.head? = some 36
        · rw [if_pos hmark, if_neg (not_not_intro hmark)]
          have hparse := parseInt_eq header.tail rest
          cases hnumber : headerNumber header.tail with
          | none =>
              rw [hnumber] at hparse
              exact .inl ⟨rfl, fails_bind ⟨.invalidData, congrArg Prod.fst hparse,
                Failure.noConfusion⟩⟩
          | some length =>
              rw [hnumber] at hparse
              exact .inr ⟨length, rest, rfl, bind_of_ok hparse⟩
        · rw [if_neg hmark, if_pos hmark]
          exact .inl ⟨rfl, .invalidData, rfl, Failure.noConfusion⟩
  · refine .inl ⟨?_, fails_bind hfails⟩
    obtain ⟨failure, hresult, -⟩ := hfails
    rw [announcedLength]
    generalize readLine source = result at hresult
    obtain ⟨outcome, left⟩ := result
    cases hresult
    rfl

theorem readBulkData_capacity {length : Int64} (hwide : 2 ^ 63 ≤ length.toInt + 2)
    (source : Source) : readBulkData length source = (.error .capacity, source) := by
  have hzero : (0 : Int64).toInt = 0 := rfl
  rw [readBulkData, if_neg (by rw [Int64.lt_iff_toInt_lt, hzero]; omega), if_pos (by omega)]
  rfl

theorem readBulkData_cases {length : Int64} (hfits : length.toInt + 2 < 2 ^ 63) (source : Source) :
    (skip (if length < 0 then 0 else length.toInt.toNat + 2) source = none
        ∧ Fails (readBulkData length source))
      ∨ ∃ arg rest, skip (if length < 0 then 0 else length.toInt.toNat + 2) source = some rest
        ∧ readBulkData length source = (.ok arg, rest)
        ∧ arg.length = length.toInt.toNat := by
  have hzero : (0 : Int64).toInt = 0 := rfl
  rw [readBulkData]
  by_cases hnegative : length < 0
  · rw [if_pos hnegative, if_pos hnegative]
    rw [Int64.lt_iff_toInt_lt, hzero] at hnegative
    refine .inr ⟨[], source, by rw [skip], rfl, ?_⟩
    rw [List.length_nil]
    omega
  · rw [if_neg hnegative, if_neg hnegative]
    rw [Int64.lt_iff_toInt_lt, hzero] at hnegative
    rw [if_neg (by omega)]
    cases hskip : skip (length.toInt.toNat + 2) source with
    | none => exact .inl ⟨rfl, fails_bind (fails_of_skip hskip)⟩
    | some rest =>
        obtain ⟨input, hread, hlength⟩ := readExact_of_skip hskip
        refine .inr ⟨input.take length.toInt.toNat, rest, rfl, bind_of_ok hread, ?_⟩
        rw [List.length_take, hlength]
        omega

/-- What becomes of bulk strings that announce these lengths, and of whether all of them are
there. -/
structure Reads (lengths : List Int64) (whole : Bool)
    (result : Except Failure (List Bytes) × Source) : Prop where
  panics : ∀ length ∈ lengths, 2 ^ 63 ≤ length.toInt + 2 → result.1 = .error .capacity
  gives : (∀ length ∈ lengths, length.toInt + 2 < 2 ^ 63) → whole = true →
    ∃ args, result.1 = .ok args
      ∧ args.map List.length = lengths.map fun length => length.toInt.toNat
  fails : (∀ length ∈ lengths, length.toInt + 2 < 2 ^ 63) → whole = false → Fails result

theorem Reads.of_fails {lengths : List Int64} {result : Except Failure (List Bytes) × Source}
    (hfit : ∀ length ∈ lengths, length.toInt + 2 < 2 ^ 63) (hfails : Fails result) :
    Reads lengths false result where
  panics length hmem hwide := absurd (hfit length hmem) (by omega)
  gives _ hwhole := by cases hwhole
  fails _ _ := hfails

/-- One argument more in front. -/
theorem Reads.cons {lengths : List Int64} {whole : Bool} {source rest : Source} {count : Nat}
    (hreads : Reads lengths whole (readBulks count rest)) {length : Int64} {arg : Bytes}
    (hfits : length.toInt + 2 < 2 ^ 63) (hlength : arg.length = length.toInt.toNat)
    (hread : readBulk source = (.ok arg, rest)) :
    Reads (length :: lengths) whole (readBulks (count + 1) source) := by
  have hrun : readBulks (count + 1) source
      = (readBulks count >>= fun args => pure (arg :: args) : Fallible (List Bytes)) rest := by
    rw [readBulks, readBulksWith, bind_of_ok hread]
  rw [hrun]
  refine ⟨fun other hmem hwide => ?_, fun hfit hwhole => ?_, fun hfit hshort => ?_⟩
  · rcases List.mem_cons.mp hmem with rfl | hmem
    · omega
    · exact bind_of_error (hreads.panics other hmem hwide)
  · have hlater := fun other hmem => hfit other (List.mem_cons_of_mem length hmem)
    obtain ⟨args, hresult, hlengths⟩ := hreads.gives hlater hwhole
    refine ⟨arg :: args, bind_pure_of_ok hresult _, ?_⟩
    rw [List.map_cons, List.map_cons, hlength, hlengths]
  · exact fails_bind (hreads.fails (fun other hmem => hfit other (List.mem_cons_of_mem length hmem))
      hshort)

theorem readBulks_reads (count : Nat) (source : Source) :
    Reads (announcedLengths count source).1 (announcedLengths count source).2
      (readBulks count source) := by
  induction count generalizing source with
  | zero =>
      exact ⟨fun _ hmem => absurd hmem List.not_mem_nil, fun _ _ => ⟨[], rfl, rfl⟩,
        fun _ hshort => by cases hshort⟩
  | succ count ih =>
      rw [announcedLengths.eq_def]
      dsimp only
      rcases readBulk_cases source with ⟨hnone, hfails⟩ | ⟨length, rest, hannounced, hread⟩
      · rw [hnone]
        exact .of_fails (by simp) (fails_bind hfails)
      · rw [hannounced]
        dsimp only
        by_cases hfits : length.toInt + 2 < 2 ^ 63
        · rcases readBulkData_cases hfits rest with ⟨hskip, hfails⟩ | ⟨arg, left, hskip, hdata, hlength⟩
          · rw [hskip]
            rw [← hread] at hfails
            exact .of_fails (by simpa using hfits) (fails_bind hfails)
          · rw [hskip]
            exact (ih left).cons hfits hlength (hread.trans hdata)
        · -- The panic comes before anything behind the header is read.
          have hwide : 2 ^ 63 ≤ length.toInt + 2 := by omega
          have hresult : (readBulks (count + 1) source).1 = .error .capacity := by
            rw [readBulks, readBulksWith]
            refine bind_of_error ?_
            rw [← readBulk, hread, readBulkData_capacity hwide]
          split
          · exact ⟨fun _ _ _ => hresult, fun hfit => absurd (hfit length List.mem_cons_self) hfits,
              fun hfit => absurd (hfit length List.mem_cons_self) hfits⟩
          · exact ⟨fun _ _ _ => hresult, fun hfit => absurd (hfit length List.mem_cons_self) hfits,
              fun hfit => absurd (hfit length List.mem_cons_self) hfits⟩

/-- A command that is an array, behind its first line. -/
def readArray (count : Int64) : Fallible (Option (List Bytes)) :=
  if count ≤ 0 then pure (some [])
  else if 2 ^ 63 ≤ count.toInt.toNat * 24 then throw .capacity
  else do
    let args ← readBulks count.toInt.toNat
    pure (some args)

theorem readCommand_cases (source : Source) :
    (announcedCount source = none ∧ (readCommand source).1 ≠ .error .capacity)
      ∨ ∃ count rest, announcedCount source = some (count, rest)
        ∧ readCommand source = readArray count rest := by
  rcases readLine_cases source with ⟨line, rest, hline⟩ | hfails
  · rw [announcedCount, readCommand, readCommandWith, bind_of_ok hline, hline]
    cases line with
    | none => exact .inl ⟨rfl, fun hcapacity => by cases hcapacity⟩
    | some line =>
        dsimp only
        by_cases hmark : line.head? = some 42
        · have hline : line ≠ [] := by
            rintro rfl
            cases hmark
          rw [if_pos hmark, if_neg hline, if_pos hmark]
          have hparse := parseInt_eq line.tail rest
          cases hnumber : headerNumber line.tail with
          | none =>
              rw [hnumber] at hparse
              refine .inl ⟨rfl, fun hcapacity => ?_⟩
              rw [bind_of_error (congrArg Prod.fst hparse)] at hcapacity
              cases hcapacity
          | some count =>
              rw [hnumber] at hparse
              exact .inr ⟨count, rest, rfl, bind_of_ok hparse⟩
        · rw [if_neg hmark, if_neg hmark]
          refine .inl ⟨rfl, ?_⟩
          split <;> exact fun hcapacity => by cases hcapacity
  · obtain ⟨failure, hresult, hfailure⟩ := hfails
    refine .inl ⟨?_, fun hcapacity => ?_⟩
    · rw [announcedCount]
      generalize readLine source = result at hresult
      obtain ⟨outcome, left⟩ := result
      cases hresult
      rfl
    · rw [readCommand, readCommandWith, bind_of_error hresult] at hcapacity
      exact hfailure (Except.error.inj hcapacity)

theorem map_toInt_iff {lengths : List Int64} :
    (lengths.map fun length => (length.toInt.toNat : Int)) = lengths.map Int64.toInt
      ↔ ∀ length ∈ lengths, 0 ≤ length.toInt := by
  rw [List.map_inj_left]
  exact forall₂_congr fun length _ => by omega

/-- The result of an array command, and what its values have to be. -/
def SoundArray (count : Int64) (rest : Source) : Prop :=
  (readArray count rest).1 ≠ .error .capacity
    ∧ ∀ args, (readArray count rest).1 = .ok (some args) →
      args.map (fun arg => (arg.length : Int))
        = (announcedLengths count.toInt.toNat rest).1.map Int64.toInt

def FittingArray (count : Int64) (rest : Source) : Prop :=
  count.toInt * 24 < 2 ^ 63
    ∧ (∀ length ∈ (announcedLengths count.toInt.toNat rest).1, length.toInt + 2 < 2 ^ 63)
    ∧ ((announcedLengths count.toInt.toNat rest).2 = true →
      ∀ length ∈ (announcedLengths count.toInt.toNat rest).1, 0 ≤ length.toInt)

theorem soundArray_iff (count : Int64) (rest : Source) :
    SoundArray count rest ↔ FittingArray count rest := by
  have hzero : (0 : Int64).toInt = 0 := rfl
  have hreads := readBulks_reads count.toInt.toNat rest
  rw [SoundArray, FittingArray, readArray]
  by_cases hempty : count ≤ 0
  · rw [if_pos hempty]
    rw [Int64.le_iff_toInt_le, hzero] at hempty
    have hnone : count.toInt.toNat = 0 := by omega
    rw [hnone]
    refine iff_of_true ⟨fun hcapacity => (by cases hcapacity), fun args hargs => ?_⟩
      ⟨by omega, by simp [announcedLengths], by simp [announcedLengths]⟩
    obtain rfl : [] = args := Option.some.inj (Except.ok.inj hargs)
    rfl
  rw [if_neg hempty]
  rw [Int64.le_iff_toInt_le, hzero] at hempty
  by_cases hmany : 2 ^ 63 ≤ count.toInt.toNat * 24
  · rw [if_pos hmany]
    exact iff_of_false (fun hsound => hsound.1 rfl) fun hfits => by omega
  rw [if_neg hmany]
  by_cases hfit : ∀ length ∈ (announcedLengths count.toInt.toNat rest).1,
      length.toInt + 2 < 2 ^ 63
  · cases hwhole : (announcedLengths count.toInt.toNat rest).2 with
    | false =>
        obtain ⟨failure, hresult, hfailure⟩ := hreads.fails hfit hwhole
        rw [bind_of_error hresult]
        refine iff_of_true ⟨fun hcapacity => hfailure (Except.error.inj hcapacity),
          fun args hargs => by cases hargs⟩ ⟨by omega, hfit, fun hwhole => by cases hwhole⟩
    | true =>
        obtain ⟨args, hresult, hlengths⟩ := hreads.gives hfit hwhole
        have hcasts : args.map (fun arg => (arg.length : Int))
            = (announcedLengths count.toInt.toNat rest).1.map fun length =>
              (length.toInt.toNat : Int) := by
          have hmap := congrArg (List.map (fun length : Nat => (length : Int))) hlengths
          rwa [List.map_map, List.map_map] at hmap
        rw [bind_pure_of_ok hresult some, ← map_toInt_iff, ← hcasts]
        constructor
        · rintro ⟨-, hvalues⟩
          exact ⟨by omega, hfit, fun _ => hvalues args rfl⟩
        · rintro ⟨-, -, hvalues⟩
          refine ⟨fun hcapacity => (by cases hcapacity), fun args' hargs => ?_⟩
          obtain rfl : args = args' := Option.some.inj (Except.ok.inj hargs)
          exact hvalues rfl
  · refine iff_of_false (fun hsound => hsound.1 ?_) fun hfits => hfit hfits.2.1
    obtain ⟨length, hlength⟩ := not_forall.mp hfit
    obtain ⟨hmem, hwide⟩ := Classical.not_imp.mp hlength
    exact bind_of_error (hreads.panics length hmem (by omega))

/-- A command is read as announced exactly within the limits. -/
theorem sound_iff (source : Source) : Sound source ↔ Fitting source := by
  rw [Sound, Fitting]
  rcases readCommand_cases source with ⟨hnone, hresult⟩ | ⟨count, rest, hannounced, hread⟩
  · rw [hnone]
    exact iff_of_true ⟨hresult, fun _ _ _ hsome => by cases hsome⟩ fun _ _ hsome => by cases hsome
  · have harray := soundArray_iff count rest
    rw [SoundArray, FittingArray] at harray
    rw [hannounced, hread]
    constructor
    · rintro ⟨hcapacity, hvalues⟩ other left hsame
      cases hsame
      exact harray.mp ⟨hcapacity, fun args hargs => hvalues count rest args rfl hargs⟩
    · intro hfits
      obtain ⟨hcapacity, hvalues⟩ := harray.mpr (hfits count rest rfl)
      refine ⟨hcapacity, fun other left args hsame hargs => ?_⟩
      cases hsame
      exact hvalues args hargs

end Resp

namespace Memcache

/-- The words of a storage command, and what follows its line. -/
def storage (source : Source) : Option (List Bytes × Source) :=
  match readLine source with
  | (.ok (some line), rest) =>
      let parts := tokens (· = 32) line
      if isStorage parts ∧ 5 ≤ parts.length then some (parts, rest) else none
  | _ => none

/-- The byte count that the words announce. -/
def announced (parts : List Bytes) : Option Nat :=
  (fromUtf8 (parts.getD 4 [])).bind fun text => numeral text.toList

/-- The byte count and its sum with the terminator stay within the address space, and a request has
as many bytes as are announced. -/
def Sound (source : Source) : Prop :=
  ∀ parts rest, storage source = some (parts, rest) →
    parseUsize (parts.getD 4 []) + 2 < 2 ^ 64
      ∧ (readData (parseUsize (parts.getD 4 [])) rest).1 ≠ .error .capacity
      ∧ ∀ command, (read source).1 = .request command →
        announced parts = some command.data.length

/-- The limits: a number that fits with the terminator; or something else, with less than a
terminator behind it. -/
def Fitting (source : Source) : Prop :=
  ∀ parts rest, storage source = some (parts, rest) →
    (∃ n, announced parts = some n ∧ n + 2 < 2 ^ 63)
      ∨ ((∀ n, announced parts = some n → 2 ^ 64 ≤ n) ∧ skip 2 rest = none)

theorem parseUsize_cases (parts : List Bytes) :
    (∃ n, announced parts = some n ∧ n < 2 ^ 64 ∧ parseUsize (parts.getD 4 []) = n)
      ∨ ((∀ n, announced parts = some n → 2 ^ 64 ≤ n) ∧ parseUsize (parts.getD 4 []) = 0) := by
  rw [announced, parseUsize]
  cases fromUtf8 (parts.getD 4 []) with
  | none => exact .inr ⟨fun n hn => (by cases hn), rfl⟩
  | some text =>
      rw [Option.bind_some, Option.bind_some]
      rcases Text.parseUsize_cases text.toList with ⟨n, hn, hfits, hparse⟩ | ⟨hwide, hparse⟩
      · exact .inl ⟨n, hn, hfits, by rw [hparse, Option.getD_some]⟩
      · exact .inr ⟨hwide, by rw [hparse, Option.getD_none]⟩

theorem readData_cases {n : Nat} (hfits : n + 2 < 2 ^ 63) (source : Source) :
    (skip (n + 2) source = none ∧ Fails (readData n source))
      ∨ ∃ data, skip (n + 2) source ≠ none ∧ (readData n source).1 = .ok data ∧ data.length = n := by
  have hsize : (n + 2) % 2 ^ 64 = n + 2 := Nat.mod_eq_of_lt (by omega)
  have hdata : readData n = (do
      let data ← readExact (n + 2)
      pure (data.take n) : Fallible Bytes) := by
    rw [readData]
    dsimp only
    rw [hsize, if_neg (by omega)]
  rw [hdata]
  cases hskip : skip (n + 2) source with
  | none => exact .inl ⟨rfl, fails_bind (fails_of_skip hskip)⟩
  | some rest =>
      obtain ⟨input, hread, hlength⟩ := readExact_of_skip hskip
      refine .inr ⟨input.take n, by simp, bind_pure_of_ok (congrArg Prod.fst hread) _, ?_⟩
      rw [List.length_take, hlength]
      omega

theorem read_of_storage {source rest : Source} {parts : List Bytes}
    (hstorage : storage source = some (parts, rest)) :
    (∃ data, (readData (parseUsize (parts.getD 4 [])) rest).1 = .ok data
        ∧ (read source).1 = .request { parts, data })
      ∨ ∃ failure, (readData (parseUsize (parts.getD 4 [])) rest).1 = .error failure
        ∧ (read source).1 = .close := by
  rw [storage] at hstorage
  split at hstorage
  · rename_i line left hline
    dsimp only at hstorage
    split at hstorage
    · rename_i hcommand
      obtain ⟨rfl, rfl⟩ := Prod.mk.inj (Option.some.inj hstorage)
      have hwords : tokens (· = 32) line ≠ [] := by
        intro hnil
        rw [hnil] at hcommand
        exact absurd hcommand.2 (by decide)
      rw [read, run_bind_of_eq hline]
      dsimp only
      rw [if_neg hwords, if_pos hcommand]
      generalize hdata : readData (parseUsize ((tokens (· = 32) line).getD 4 [])) left = result
      obtain ⟨outcome, final⟩ := result
      rw [run_bind_of_eq hdata]
      cases outcome with
      | ok data => exact .inl ⟨data, rfl, rfl⟩
      | error failure => exact .inr ⟨failure, rfl, rfl⟩
    · cases hstorage
  · cases hstorage

/-- A storage command is read as announced exactly within the limits. -/
theorem sound_iff (source : Source) : Sound source ↔ Fitting source := by
  refine forall₂_congr fun parts rest => forall_congr' fun hstorage => ?_
  have hread := read_of_storage hstorage
  rcases parseUsize_cases parts with ⟨n, hn, hbound, hparse⟩ | ⟨hwide, hparse⟩
  · rw [hparse] at hread ⊢
    rw [hn]
    by_cases hfits : n + 2 < 2 ^ 63
    · refine iff_of_true ⟨by omega, ?_, fun command hcommand => ?_⟩ (.inl ⟨n, rfl, hfits⟩)
      · rcases readData_cases hfits rest with ⟨-, failure, hresult, hfailure⟩ | ⟨data, -, hresult, -⟩
        · rw [hresult]
          exact fun hcapacity => hfailure (Except.error.inj hcapacity)
        · rw [hresult]
          exact fun hcapacity => by cases hcapacity
      · rcases hread with ⟨data, hdata, hrequest⟩ | ⟨failure, -, hclose⟩
        · rw [hrequest, Received.request.injEq] at hcommand
          rw [← hcommand]
          rcases readData_cases hfits rest with ⟨-, failure, hresult, -⟩ | ⟨data', -, hresult, hlength⟩
          · rw [hresult] at hdata
            cases hdata
          · rw [hresult, Except.ok.injEq] at hdata
            rw [← hdata, hlength]
        · rw [hclose] at hcommand
          cases hcommand
    · refine iff_of_false ?_ ?_
      · rintro ⟨hsum, hcapacity, -⟩
        refine hcapacity ?_
        rw [readData]
        dsimp only
        rw [Nat.mod_eq_of_lt hsum, if_pos (Nat.le_of_not_lt hfits)]
        rfl
      · rintro (⟨m, hm, hfits'⟩ | ⟨hnumber, -⟩)
        · rw [← Option.some.inj hm] at hfits'
          exact hfits hfits'
        · exact absurd (hnumber n rfl) (by omega)
  · have hnone : ¬ ∃ n, announced parts = some n ∧ n + 2 < 2 ^ 63 := by
      rintro ⟨n, hn, hfits⟩
      have := hwide n hn
      omega
    rw [hparse] at hread ⊢
    rcases readData_cases (show 0 + 2 < 2 ^ 63 by decide) rest with ⟨hskip, failure, hresult, hfailure⟩
        | ⟨data, hskip, hresult, hlength⟩
    · refine iff_of_true ⟨by decide, ?_, fun command hcommand => ?_⟩ (.inr ⟨hwide, hskip⟩)
      · rw [hresult]
        exact fun hcapacity => hfailure (Except.error.inj hcapacity)
      · rcases hread with ⟨data, hdata, -⟩ | ⟨-, -, hclose⟩
        · rw [hresult] at hdata
          cases hdata
        · rw [hclose] at hcommand
          cases hcommand
    · refine iff_of_false ?_ ?_
      · rintro ⟨-, -, hvalue⟩
        rcases hread with ⟨data', hdata, hrequest⟩ | ⟨failure, hfailure, -⟩
        · have hzero := hvalue _ hrequest
          rw [hresult, Except.ok.injEq] at hdata
          rw [← hdata, hlength] at hzero
          exact absurd (hwide 0 hzero) (by decide)
        · rw [hresult] at hfailure
          cases hfailure
      · rintro (hfits | ⟨-, hshort⟩)
        · exact hnone hfits
        · exact hskip hshort

end Memcache

namespace Http

/-- What follows the request line, if it has a method and a path. -/
def afterRequestLine (source : Source) : Option Source :=
  match readLine source with
  | (.ok line, rest) =>
      match tokens isWhitespace line with
      | _ :: _ :: _ => some rest
      | _ => none
  | _ => none

/-- The text behind the name, if the line is a length header. -/
def lengthText (line : List Char) : Option (List Char) :=
  match splitOnce ':' line with
  | none => none
  | some (key, value) =>
      if (trim key).map Char.toLower = "content-length".toList then some (trim value) else none

/-- The text of the last length header, after `text` has been seen; nothing if the headers do not
come to an end. -/
def announced : Nat → Option (List Char) → Source → Option (Option (List Char))
  | 0, text, _ => some text
  | fuel + 1, text, source =>
      match readLine source with
      | (.ok line, rest) =>
          if trimEnd line = [] then some text
          else announced fuel ((lengthText (trimEnd line)).or text) rest
      | _ => none

/-- The body is as long as is announced, and empty if nothing is. -/
def Announces (start : Source) (body : Bytes) : Prop :=
  match announced (start.length + 1) none start with
  | some (some text) => numeral text = some body.length
  | _ => body = []

/-- The announced length is not more than there are addresses, and a request has as many bytes as
are announced. -/
def Sound (source : Source) : Prop :=
  ∀ start headers rest, afterRequestLine source = some start →
    readAllHeaders start = (.ok headers, rest) →
      (readBody headers.contentLength rest).1 ≠ .error .capacity
        ∧ ∀ request, (read source).1 = .request request → Announces start request.body

/-- The limits: whatever is announced is a number that fits. -/
def Fitting (source : Source) : Prop :=
  ∀ start text, afterRequestLine source = some start →
    announced (start.length + 1) none start = some (some text) →
      ∃ n, numeral text = some n ∧ n < 2 ^ 63

/-- The length that a text stands for: nothing, and what is no number, is zero. -/
def lengthOf (text : Option (List Char)) : Nat := (text.bind parseUsize).getD 0

theorem contentLength_add (headers : Headers) (line : List Char) :
    (headers.add line).contentLength
      = match lengthText line with
        | none => headers.contentLength
        | some text => lengthOf (some text) := by
  unfold Headers.add lengthText
  cases splitOnce ':' line with
  | none => rfl
  | some entry =>
      obtain ⟨key, value⟩ := entry
      dsimp only
      by_cases hlength : (trim key).map Char.toLower = "content-length".toList
      · rw [if_pos hlength, if_pos hlength]
        rfl
      · rw [if_neg hlength, if_neg hlength]
        split <;> rfl

/-- One header line keeps what the headers hold and what has been seen in step. -/
theorem lengthOf_add {headers : Headers} {text : Option (List Char)}
    (hstep : headers.contentLength = lengthOf text) (line : List Char) :
    (headers.add line).contentLength = lengthOf ((lengthText line).or text) := by
  rw [contentLength_add]
  cases lengthText line with
  | none => exact hstep
  | some found => rfl

/-- The header loop comes to an end where the headers do, and with the length that they announce. -/
theorem readHeaders_cases (fuel : Nat) : ∀ (headers : Headers) (text : Option (List Char))
    (source : Source), headers.contentLength = lengthOf text →
      (∃ final rest seen, readHeaders fuel headers source = (.ok final, rest)
        ∧ announced fuel text source = some seen ∧ final.contentLength = lengthOf seen)
      ∨ (∃ failure, (readHeaders fuel headers source).1 = .error failure)
        ∧ announced fuel text source = none := by
  induction fuel with
  | zero =>
      intro headers text source hstep
      exact .inl ⟨headers, source, text, rfl, rfl, hstep⟩
  | succ fuel ih =>
      intro headers text source hstep
      rw [readHeaders, announced]
      rcases hline : readLine source with ⟨failure | line, left⟩
      · exact .inr ⟨⟨failure, bind_of_error (congrArg Prod.fst hline)⟩, rfl⟩
      · rw [bind_of_ok hline]
        dsimp only
        by_cases hempty : trimEnd line = []
        · rw [if_pos hempty, if_pos hempty]
          exact .inl ⟨headers, left, text, rfl, rfl, hstep⟩
        · rw [if_neg hempty, if_neg hempty]
          exact ih _ _ left (lengthOf_add hstep _)

theorem readBody_of_lt {n : Nat} (hfits : n < 2 ^ 63) : readBody n = readExact n := by
  rw [readBody, if_neg (Nat.not_le_of_lt hfits)]

theorem readBody_cases {n : Nat} (hfits : n < 2 ^ 63) (source : Source) :
    Fails (readBody n source) ∨ ∃ body, (readBody n source).1 = .ok body ∧ body.length = n := by
  rw [readBody_of_lt hfits]
  cases hskip : skip n source with
  | none => exact .inl (fails_of_skip hskip)
  | some rest =>
      obtain ⟨body, hread, hlength⟩ := readExact_of_skip hskip
      exact .inr ⟨body, congrArg Prod.fst hread, hlength⟩

theorem read_of_readAllHeaders {source start rest : Source} {headers : Headers}
    (hstart : afterRequestLine source = some start)
    (hheaders : readAllHeaders start = (.ok headers, rest)) :
    (∃ body method path, (readBody headers.contentLength rest).1 = .ok body
        ∧ (read source).1
          = .request { method, path, body, keepAlive := headers.keepAlive })
      ∨ ∃ failure, (readBody headers.contentLength rest).1 = .error failure
        ∧ (read source).1 = .close := by
  rw [afterRequestLine] at hstart
  split at hstart
  · rename_i line left hline
    split at hstart
    · rename_i method path others htokens
      rw [Option.some.inj hstart] at hline
      have hnil : line ≠ [] := by
        intro hnil
        rw [hnil] at htokens
        cases htokens
      rw [read, run_bind_of_eq hline]
      dsimp only
      rw [if_neg hnil, htokens]
      dsimp only
      rw [run_bind_of_eq hheaders]
      dsimp only
      generalize hbody : readBody headers.contentLength rest = result
      obtain ⟨outcome, final⟩ := result
      rw [run_bind_of_eq hbody]
      cases outcome with
      | ok body => exact .inl ⟨body, method, path, rfl, rfl⟩
      | error failure => exact .inr ⟨failure, rfl, rfl⟩
    · cases hstart
  · cases hstart

/-- Within the limit, what is read is as long as the headers say. -/
theorem body_length {source start rest : Source} {headers : Headers}
    (hstart : afterRequestLine source = some start)
    (hheaders : readAllHeaders start = (.ok headers, rest))
    (hfits : headers.contentLength < 2 ^ 63) :
    (readBody headers.contentLength rest).1 ≠ .error .capacity
      ∧ ∀ request, (read source).1 = .request request →
        request.body.length = headers.contentLength := by
  rcases readBody_cases hfits rest with ⟨failure, hresult, hfailure⟩ | ⟨body, hresult, hlength⟩
  · refine ⟨?_, fun request hrequest => ?_⟩
    · rw [hresult]
      exact fun hcapacity => hfailure (Except.error.inj hcapacity)
    · rcases read_of_readAllHeaders hstart hheaders with ⟨body, method, path, hbody, -⟩ | ⟨-, -, hclose⟩
      · rw [hresult] at hbody
        cases hbody
      · rw [hclose] at hrequest
        cases hrequest
  · refine ⟨?_, fun request hrequest => ?_⟩
    · rw [hresult]
      exact fun hcapacity => by cases hcapacity
    · rcases read_of_readAllHeaders hstart hheaders with ⟨body', method, path, hbody, hread⟩
          | ⟨failure, hfailure, -⟩
      · rw [hread, Received.request.injEq] at hrequest
        rw [hresult, Except.ok.injEq] at hbody
        rw [← hrequest, ← hbody, hlength]
      · rw [hresult] at hfailure
        cases hfailure

/-- Headers that come to an end are read as announced exactly within the limits. -/
theorem announces_iff {source start rest : Source} {headers : Headers} {seen : Option (List Char)}
    (hstart : afterRequestLine source = some start)
    (hheaders : readAllHeaders start = (.ok headers, rest))
    (hseen : announced (start.length + 1) none start = some seen)
    (hcontent : headers.contentLength = lengthOf seen) :
    ((readBody headers.contentLength rest).1 ≠ .error .capacity
        ∧ ∀ request, (read source).1 = .request request → Announces start request.body)
      ↔ ∀ text, seen = some text → ∃ n, numeral text = some n ∧ n < 2 ^ 63 := by
  unfold Announces
  rw [hseen]
  cases seen with
  | none =>
      obtain ⟨hcapacity, hlength⟩ :=
        body_length hstart hheaders (by rw [hcontent]; exact Nat.two_pow_pos 63)
      refine iff_of_true ⟨hcapacity, fun request hrequest => ?_⟩ (fun text htext => by cases htext)
      exact List.eq_nil_of_length_eq_zero ((hlength request hrequest).trans hcontent)
  | some text =>
      rw [lengthOf, Option.bind_some] at hcontent
      rcases Text.parseUsize_cases text with ⟨n, hn, hbound, hparse⟩ | ⟨hwide, hparse⟩
      · rw [hparse, Option.getD_some] at hcontent
        by_cases hfits : n < 2 ^ 63
        · obtain ⟨hcapacity, hlength⟩ := body_length hstart hheaders (hcontent ▸ hfits)
          refine iff_of_true ⟨hcapacity, fun request hrequest => ?_⟩ ?_
          · dsimp only
            rw [hlength request hrequest, hcontent, hn]
          · intro text' htext'
            rw [← Option.some.inj htext']
            exact ⟨n, hn, hfits⟩
        · refine iff_of_false ?_ ?_
          · rintro ⟨hcapacity, -⟩
            refine hcapacity ?_
            rw [hcontent, readBody, if_pos (Nat.le_of_not_lt hfits)]
            rfl
          · intro hfitting
            obtain ⟨m, hm, hfits'⟩ := hfitting text rfl
            rw [hn] at hm
            rw [← Option.some.inj hm] at hfits'
            exact hfits hfits'
      · rw [hparse, Option.getD_none] at hcontent
        have hread : ∃ method path, (read source).1
            = .request { method, path, body := [], keepAlive := headers.keepAlive } := by
          rcases read_of_readAllHeaders hstart hheaders with ⟨body, method, path, hbody, hread⟩
              | ⟨failure, hfailure, -⟩
          · rw [hcontent, readBody_of_lt (Nat.two_pow_pos 63)] at hbody
            cases hbody
            exact ⟨method, path, hread⟩
          · rw [hcontent, readBody_of_lt (Nat.two_pow_pos 63)] at hfailure
            cases hfailure
        obtain ⟨method, path, hread⟩ := hread
        refine iff_of_false ?_ ?_
        · rintro ⟨-, hvalue⟩
          exact absurd (hwide 0 (hvalue _ hread)) (by decide)
        · intro hfitting
          obtain ⟨n, hn, hfits⟩ := hfitting text rfl
          exact absurd (hwide n hn) (by omega)

/-- A request is read as announced exactly within the limits. -/
theorem sound_iff (source : Source) : Sound source ↔ Fitting source := by
  constructor
  · intro hsound start text hstart htext
    rcases readHeaders_cases (start.length + 1) {} none start rfl with
      ⟨headers, rest, seen, hheaders, hseen, hcontent⟩ | ⟨-, hnone⟩
    · refine (announces_iff hstart hheaders hseen hcontent).mp
        (hsound start headers rest hstart hheaders) text ?_
      exact Option.some.inj (hseen.symm.trans htext)
    · rw [hnone] at htext
      cases htext
  · intro hfitting start headers rest hstart hheaders
    rcases readHeaders_cases (start.length + 1) {} none start rfl with
      ⟨headers', rest', seen, hheaders', hseen, hcontent⟩ | ⟨⟨failure, hfailure⟩, -⟩
    · obtain ⟨hsame, -⟩ := Prod.mk.inj (hheaders.symm.trans hheaders')
      rw [← Except.ok.inj hsame] at hcontent
      refine (announces_iff hstart hheaders hseen hcontent).mpr fun text htext => ?_
      exact hfitting start text hstart (hseen.trans (congrArg some htext))
    · have hok := congrArg Prod.fst hheaders
      rw [readAllHeaders, hfailure] at hok
      cases hok

end Http

/-- The numbers that clients announce are safe to compute with, and kept to, exactly within the
limits of each parser. -/
theorem announced_lengths_iff (source : Source) :
    (Resp.Sound source ↔ Resp.Fitting source)
      ∧ (Memcache.Sound source ↔ Memcache.Fitting source)
      ∧ (Http.Sound source ↔ Http.Fitting source) :=
  ⟨Resp.sound_iff source, Memcache.sound_iff source, Http.sound_iff source⟩

/-- A byte count that wraps with its terminator: the one byte behind the command is stored as a value
of that length. -/
theorem announced_lengths_wrap :
    ¬ ∀ source, Resp.Sound source ∧ Memcache.Sound source ∧ Http.Sound source := by
  intro hsound
  obtain ⟨-, hmemcache, -⟩ :=
    hsound (arrive (asBytes "set k 0 0 18446744073709551615\r\nx"))
  obtain ⟨hsum, -⟩ := hmemcache
    (["set", "k", "0", "0", "18446744073709551615"].map asBytes) (arrive (asBytes "x"))
    (by decide +kernel)
  exact absurd hsum (by decide +kernel)

end OneBarrier
