import OneBarrier.Proof.Silent
import OneBarrier.Lib.Decimal

/-!
# Requests cut short

A peer that closes the connection inside a request leaves a partial line, a partial argument or a
partial body behind. Where the request announces what is to come, the read fails and nothing is
executed. A partial line is taken as it stands: it executes exactly if it already reads as a write.
-/

namespace OneBarrier

open Wire Input Utf8 Text

namespace Frontend

variable {frontend : Frontend} {client : UInt32} {conn : frontend.Conn} {source : Source}

theorem converse_nil (hend : frontend.read [] = (.close, [])) (fuel : Nat) :
    frontend.converse client fuel conn [] = .ret [] := by
  cases fuel with
  | zero => rfl
  | succ fuel => rw [converse, hend]

theorem session_silent_of_close (hread : (frontend.read source).1 = .close) :
    (frontend.session client conn source).Silent := by
  rw [session, converse]
  generalize frontend.read source = result at hread
  obtain ⟨received, rest⟩ := result
  obtain rfl : received = .close := hread
  trivial

theorem session_silent_of_again (hend : frontend.read [] = (.close, []))
    (hread : frontend.read source = (.again, [])) :
    (frontend.session client conn source).Silent := by
  rw [session, converse, hread]
  dsimp only
  rw [converse_nil hend]
  trivial

theorem session_silent_iff (hend : frontend.read [] = (.close, [])) {request : frontend.Request}
    (hread : frontend.read source = (.request request, [])) :
    (frontend.session client conn source).Silent ↔ (frontend.serve client conn request).Silent := by
  rw [session, converse, hread]
  refine Conv.silent_bind fun turn => ?_
  split
  · trivial
  · rw [converse_nil hend]
    trivial

end Frontend

/-- The line without its terminator. -/
def chomp (line : Bytes) : Bytes :=
  (line.reverse.dropWhile (fun byte => byte = 10 || byte = 13)).reverse

theorem chomp_append {line terminator : Bytes} (hline : 10 ∉ line ∧ 13 ∉ line)
    (hterminator : ∀ byte ∈ terminator, byte = 10 ∨ byte = 13) :
    chomp (line ++ terminator) = line := by
  have hkeep : line.reverse.dropWhile (fun byte => byte = 10 || byte = 13) = line.reverse := by
    cases hreverse : line.reverse with
    | nil => rfl
    | cons byte bytes =>
        have hmem : byte ∈ line := List.mem_reverse.mp (hreverse ▸ List.mem_cons_self)
        have hten : byte ≠ 10 := fun heq => hline.1 (heq ▸ hmem)
        have hthirteen : byte ≠ 13 := fun heq => hline.2 (heq ▸ hmem)
        rw [List.dropWhile_cons_of_neg (by simp [hten, hthirteen])]
  rw [chomp, List.reverse_append, List.dropWhile_append_of_pos, hkeep, List.reverse_reverse]
  intro byte hmem
  simpa using hterminator byte (List.mem_reverse.mp hmem)

theorem head?_chomp {line : Bytes} (hchomp : chomp line ≠ []) :
    (chomp line).head? = line.head? := by
  have hsuffix := List.dropWhile_suffix (l := line.reverse) fun byte => byte = 10 || byte = 13
  obtain ⟨terminator, hline⟩ : chomp line <+: line := by
    rw [← List.reverse_suffix, chomp, List.reverse_reverse]
    exact hsuffix
  calc (chomp line).head?
      = (chomp line ++ terminator).head? := (List.head?_append_of_ne_nil _ hchomp).symm
    _ = line.head? := congrArg List.head? hline

theorem notMem_take {line : Bytes} {byte : UInt8} (hline : byte ∉ line) (count : Nat) :
    byte ∉ line.take count := fun hmem => hline (List.mem_of_mem_take hmem)

namespace Resp

theorem readLine_end {line : Bytes} (hline : 10 ∉ line) (hnonempty : line ≠ []) :
    readLine (arrive line) = (.ok (some (chomp line)), []) := by
  rw [readLine, bind_of_ok (readUntilNewline_end hline), if_neg hnonempty]
  rfl

theorem readLine_line {line : Bytes} (hline : 10 ∉ line) (rest : Source) :
    readLine (arrive line ++ some 10 :: rest) = (.ok (some (chomp (line ++ [10]))), rest) := by
  rw [readLine, bind_of_ok (readUntilNewline_line hline rest), if_neg (by simp)]
  rfl

/-- One argument in the array form: its length in decimal, and its bytes. -/
structure Bulk where
  size : Bytes
  arg : Bytes

def Bulk.bytes (bulk : Bulk) : Bytes := (36 :: bulk.size ++ [13]) ++ 10 :: (bulk.arg ++ [13, 10])

def arrayBytes (count : Bytes) (bulks : List Bulk) : Bytes :=
  (42 :: count ++ [13]) ++ 10 :: bulks.flatMap Bulk.bytes

theorem digits_notMem {text : Bytes} (htext : text.all isDigit) : 10 ∉ text ∧ 13 ∉ text := by
  constructor <;> intro hmem <;> exact absurd (List.all_eq_true.mp htext _ hmem) (by decide)

theorem header_notMem {mark : UInt8} {text : Bytes} (hmark : mark ≠ 10)
    (htext : text.all isDigit) : 10 ∉ mark :: text ++ [13] := by
  have hdigits := (digits_notMem htext).1
  simp [hmark.symm, hdigits]

/-- What is read of a header cut short is again a mark and digits. -/
theorem chomp_take_header {mark : UInt8} {text : Bytes} (hmark : mark ≠ 10 ∧ mark ≠ 13)
    (htext : text.all isDigit) {count : Nat} (hcount : 0 < count) :
    ∃ digits, digits <+: text ∧ digits.all isDigit
      ∧ chomp ((mark :: text ++ [13]).take count) = mark :: digits := by
  obtain ⟨count, rfl⟩ := Nat.exists_eq_succ_of_ne_zero (Nat.ne_of_gt hcount)
  have hprefix : (text.take count).all isDigit := by
    rw [List.all_eq_true] at htext ⊢
    exact fun byte hmem => htext byte (List.mem_of_mem_take hmem)
  have hline : ∀ digits : Bytes, digits.all isDigit → 10 ∉ mark :: digits ∧ 13 ∉ mark :: digits := by
    intro digits hdigits
    have hnotMem := digits_notMem hdigits
    simp [hmark.1.symm, hmark.2.symm, hnotMem]
  refine ⟨text.take count, List.take_prefix count text, hprefix, ?_⟩
  have htake : (mark :: text ++ [13]).take (count + 1)
      = (mark :: text.take count) ++ [13].take (count - text.length) := by
    rw [List.cons_append, List.take_succ_cons, List.take_append]
    rfl
  rw [htake]
  refine chomp_append (hline _ hprefix) fun byte hmem => ?_
  exact .inr (List.mem_singleton.mp (List.mem_of_mem_take hmem))

theorem chomp_header {mark : UInt8} {text : Bytes} (hmark : mark ≠ 10 ∧ mark ≠ 13)
    (htext : text.all isDigit) : chomp ((mark :: text ++ [13]) ++ [10]) = mark :: text := by
  have hnotMem := digits_notMem htext
  rw [List.append_assoc]
  exact chomp_append (by simp [hmark.1.symm, hmark.2.symm, hnotMem]) (by simp)

/-! ### Numerals -/

theorem parseInt_digits {text : Bytes} (htext : text.all isDigit) :
    (parseInt text = throw .invalidData ∧ (text = [] ∨ 2 ^ 63 ≤ number text)) ∨
      ∃ value : Int64, parseInt text = pure value ∧ value.toInt = number text := by
  by_cases hnonempty : text = []
  · rw [hnonempty]
    exact .inl ⟨rfl, .inl rfl⟩
  · have hparse := parseI64_digits htext hnonempty
    rw [parseInt, fromUtf8_digits htext, Option.bind_some, String.toList_ofList, trim_digits htext,
      hparse]
    split
    · rename_i value hvalue
      split at hvalue
      · rename_i hbound
        refine .inr ⟨value, rfl, ?_⟩
        rw [← Option.some.inj hvalue]
        exact Int64.toInt_ofInt_of_le (by omega) (by omega)
      · cases hvalue
    · rename_i hvalue
      split at hvalue
      · cases hvalue
      · rename_i hbound
        exact .inl ⟨rfl, .inr (Nat.le_of_not_lt hbound)⟩

theorem number_le_of_prefix {digits text : Bytes} (hdigits : digits <+: text) :
    number digits ≤ number text := by
  obtain ⟨more, rfl⟩ := hdigits
  exact number_le_append digits more

theorem parseInt_nil : parseInt [] = throw .invalidData := rfl

variable {alloc : Allocator}

/-- The rest of `readBulkWith` behind a header of digits. -/
theorem readBulk_of_header {source rest : Source} {digits : Bytes} (hdigits : digits.all isDigit)
    (hheader : readLine source = (.ok (some (36 :: digits)), rest)) :
    (Stops (alloc.Refuses (number digits + 2)) (readBulkWith alloc source)
        ∧ (digits = [] ∨ alloc.Refuses (number digits + 2)))
      ∨ (readBulkWith alloc source = (readExact (number digits + 2) >>= fun buffer =>
          pure (buffer.take (number digits)) : Fallible Bytes) rest
        ∧ ¬ alloc.Refuses (number digits + 2)) := by
  have hread : readBulkWith alloc source = (parseInt digits >>= fun length =>
      if length < 0 then pure []
      else if alloc.Refuses (length.toInt.toNat + 2) then throw .capacity
      else
        readExact (length.toInt.toNat + 2) >>= fun buffer =>
        pure (buffer.take length.toInt.toNat) : Fallible Bytes) rest := by
    rw [readBulkWith, bind_of_ok hheader]
    rfl
  rw [hread]
  obtain ⟨hparse, hwide⟩ | ⟨value, hparse, hvalue⟩ := parseInt_digits hdigits
  · rw [hparse]
    exact .inl ⟨stops_bind (stops_throw Failure.noConfusion Failure.noConfusion rest),
      hwide.imp id fun hlong => alloc.above (Nat.le_add_right_of_le hlong)⟩
  · have hpositive : ¬ value < 0 := by
      rw [Int64.lt_iff_toInt_lt, hvalue]
      simp
    have hnat : value.toInt.toNat = number digits := by omega
    have hvalueRead : parseInt digits rest = (.ok value, rest) := by
      rw [hparse]
      rfl
    rw [bind_of_ok hvalueRead, if_neg hpositive, hnat]
    split
    · rename_i hwide
      exact .inl ⟨⟨.capacity, rfl, Failure.noConfusion, fun _ => hwide⟩, .inr hwide⟩
    · rename_i hnarrow
      exact .inr ⟨rfl, hnarrow⟩

theorem readBulk_take {bulk : Bulk} (hsize : Decimal bulk.size bulk.arg.length) {count : Nat}
    (hcount : count < bulk.bytes.length) :
    Stops (alloc.Refuses (bulk.arg.length + 2)) (readBulkWith alloc (arrive (bulk.bytes.take count))) := by
  have hmark : (36 : UInt8) ≠ 10 ∧ (36 : UInt8) ≠ 13 := by decide
  have hnotMem := header_notMem hmark.1 hsize.digits
  by_cases hheader : count ≤ (36 :: bulk.size ++ [13]).length
  · -- the header itself is cut short
    rw [Bulk.bytes, List.take_append_of_le_length hheader]
    by_cases hzero : count = 0
    · rw [hzero]
      have hend : readLine (arrive []) = (.ok none, []) := rfl
      exact stops_bind_of_ok hend (stops_throw Failure.noConfusion Failure.noConfusion [])
    · obtain ⟨digits, hprefix, hdigits, hchomp⟩ :=
        chomp_take_header hmark hsize.digits (Nat.pos_of_ne_zero hzero)
      have hline := readLine_end (notMem_take hnotMem count) (by simp [hzero])
      rw [hchomp] at hline
      have hless := number_le_of_prefix hprefix
      rw [hsize.value_eq] at hless
      obtain ⟨hstops, -⟩ | ⟨hread, -⟩ := readBulk_of_header hdigits hline
      · exact hstops.imp fun hwide => alloc.larger hwide (Nat.add_le_add_right hless 2)
      · have hshort : Stops (alloc.Refuses (bulk.arg.length + 2))
            (readExact (number digits + 2) (arrive [])) :=
          stops_readExact (by simp)
        rw [hread]
        exact stops_bind hshort
  · -- the argument is cut short
    obtain ⟨more, hmore⟩ : ∃ more, count = (36 :: bulk.size ++ [13]).length + (more + 1) :=
      ⟨count - (36 :: bulk.size ++ [13]).length - 1, by omega⟩
    have hline := readLine_line hnotMem (arrive ((bulk.arg ++ [13, 10]).take more))
    rw [chomp_header hmark hsize.digits] at hline
    have hsplit : arrive (bulk.bytes.take count) = arrive (36 :: bulk.size ++ [13])
        ++ some 10 :: arrive ((bulk.arg ++ [13, 10]).take more) := by
      rw [Bulk.bytes, hmore, List.take_length_add_append, List.take_succ_cons, arrive_line]
    rw [← hsplit] at hline
    obtain ⟨hstops, -⟩ | ⟨hread, -⟩ := readBulk_of_header hsize.digits hline
    · rwa [hsize.value_eq] at hstops
    · rw [hread, hsize.value_eq]
      refine stops_bind (stops_readExact ?_)
      rw [Bulk.bytes, List.length_append, List.length_cons, List.length_append] at hcount
      simp only [List.length_take, List.length_append, List.length_cons, List.length_nil] at hcount hmore ⊢
      omega

theorem readBulk_whole {bulk : Bulk} (hsize : Decimal bulk.size bulk.arg.length) (rest : Source) :
    (Aborts (readBulkWith alloc (arrive bulk.bytes ++ rest)) ∧ alloc.Refuses (bulk.arg.length + 2)) ∨
      (readBulkWith alloc (arrive bulk.bytes ++ rest) = (.ok bulk.arg, rest)
        ∧ ¬ alloc.Refuses (bulk.arg.length + 2)) := by
  have hmark : (36 : UInt8) ≠ 10 ∧ (36 : UInt8) ≠ 13 := by decide
  have hsplit : arrive bulk.bytes ++ rest = arrive (36 :: bulk.size ++ [13])
      ++ some 10 :: (arrive (bulk.arg ++ [13, 10]) ++ rest) := by
    rw [Bulk.bytes, arrive_line, List.append_assoc]
    rfl
  have hline := readLine_line (header_notMem hmark.1 hsize.digits)
    (arrive (bulk.arg ++ [13, 10]) ++ rest)
  rw [chomp_header hmark hsize.digits, ← hsplit] at hline
  obtain ⟨hstops, hwide⟩ | ⟨hread, hnarrow⟩ := readBulk_of_header hsize.digits hline
  · rw [hsize.value_eq] at hwide
    exact .inl ⟨hstops.aborts, hwide.resolve_left hsize.nonempty⟩
  · have hexact : readExact (bulk.arg.length + 2) (arrive (bulk.arg ++ [13, 10]) ++ rest)
        = (.ok (bulk.arg ++ [13, 10]), rest) := by
      rw [← readExact_append (bulk.arg ++ [13, 10]) rest, List.length_append]
      rfl
    rw [hsize.value_eq] at hnarrow
    refine .inr ⟨?_, hnarrow⟩
    rw [hread, hsize.value_eq, bind_of_ok hexact, List.take_left]
    rfl

theorem readBulks_take {bulks : List Bulk}
    (hsizes : ∀ bulk ∈ bulks, Decimal bulk.size bulk.arg.length) {count : Nat}
    (hcount : count < (bulks.flatMap Bulk.bytes).length) :
    Stops (∃ bulk ∈ bulks, alloc.Refuses (bulk.arg.length + 2))
      (readBulksWith alloc bulks.length (arrive ((bulks.flatMap Bulk.bytes).take count))) := by
  induction bulks generalizing count with
  | nil => exact absurd hcount (by simp)
  | cons bulk bulks ih =>
      have hsize := hsizes bulk List.mem_cons_self
      have hmem := @List.mem_cons_self _ bulk bulks
      rw [List.flatMap_cons] at hcount ⊢
      by_cases hfirst : count < bulk.bytes.length
      · rw [List.take_append_of_le_length (Nat.le_of_lt hfirst)]
        exact stops_bind ((readBulk_take hsize hfirst).imp fun hwide => ⟨bulk, hmem, hwide⟩)
      · obtain ⟨more, rfl⟩ := Nat.exists_eq_add_of_le (Nat.le_of_not_lt hfirst)
        rw [List.length_append] at hcount
        have hlater := ih (fun other hmem => hsizes other (List.mem_cons_of_mem bulk hmem))
          (Nat.lt_of_add_lt_add_left hcount)
        rw [List.take_length_add_append, arrive_append]
        obtain ⟨haborts, hwide⟩ | ⟨hread, -⟩ := readBulk_whole hsize
          (arrive ((bulks.flatMap Bulk.bytes).take more))
        · exact stops_bind (haborts.stops ⟨bulk, hmem, hwide⟩)
        · refine stops_bind_of_ok hread (stops_bind (hlater.imp ?_))
          rintro ⟨other, hother, hwide⟩
          exact ⟨other, List.mem_cons_of_mem bulk hother, hwide⟩

/-- The rest of `readCommandWith` behind an array header of digits. -/
theorem readCommand_of_header {source rest : Source} {digits : Bytes} (hdigits : digits.all isDigit)
    (hheader : readLine source = (.ok (some (42 :: digits)), rest)) :
    (Stops (alloc.Refuses (number digits * 24)) (readCommandWith alloc source)
        ∧ (digits = [] ∨ alloc.Refuses (number digits * 24)))
      ∨ (digits ≠ [] ∧ number digits = 0 ∧ readCommandWith alloc source = (.ok (some []), rest))
      ∨ (number digits ≠ 0 ∧ ¬ alloc.Refuses (number digits * 24)
        ∧ readCommandWith alloc source = (readBulksWith alloc (number digits) >>= fun args =>
          pure (some args) : Fallible (Option (List Bytes))) rest) := by
  have hread : readCommandWith alloc source = (parseInt digits >>= fun count =>
      if count ≤ 0 then pure (some [])
      else if alloc.Refuses (count.toInt.toNat * 24) then throw .capacity
      else
        readBulksWith alloc count.toInt.toNat >>= fun args =>
        pure (some args) : Fallible (Option (List Bytes))) rest := by
    rw [readCommandWith, bind_of_ok hheader]
    rfl
  rw [hread]
  obtain ⟨hparse, hwide⟩ | ⟨value, hparse, hvalue⟩ := parseInt_digits hdigits
  · rw [hparse]
    exact .inl ⟨stops_bind (stops_throw Failure.noConfusion Failure.noConfusion rest),
      hwide.imp id fun hlong => alloc.above (by omega)⟩
  · have hvalueRead : parseInt digits rest = (.ok value, rest) := by
      rw [hparse]
      rfl
    have hnat : value.toInt.toNat = number digits := by omega
    rw [bind_of_ok hvalueRead, hnat]
    by_cases hzero : value ≤ 0
    · rw [if_pos hzero]
      rw [Int64.le_iff_toInt_le, hvalue] at hzero
      have hnumber : number digits = 0 := by simpa using hzero
      refine .inr (.inl ⟨?_, hnumber, rfl⟩)
      rintro rfl
      rw [parseInt_nil] at hvalueRead
      cases congrArg Prod.fst hvalueRead
    · rw [if_neg hzero]
      rw [Int64.le_iff_toInt_le, hvalue] at hzero
      have hnumber : number digits ≠ 0 := by simpa using hzero
      split
      · rename_i hwide
        exact .inl ⟨⟨.capacity, rfl, Failure.noConfusion, fun _ => hwide⟩, .inr hwide⟩
      · rename_i hnarrow
        exact .inr (.inr ⟨hnumber, hnarrow, rfl⟩)

theorem read_of_aborts {source : Source} (haborts : Aborts (readCommand source)) :
    (resp.read source).1 = .close := by
  obtain ⟨failure, hresult, hfailure⟩ := haborts
  change received (readCommand source).1 = _
  rw [hresult]
  cases failure with
  | timeout => exact absurd rfl hfailure
  | unexpectedEof => rfl
  | invalidData => rfl
  | capacity => rfl

/-- A command that is cut short: nothing has been sent, or the read fails, or its count has been cut to
zero. -/
theorem readCommand_take {count : Bytes} {bulks : List Bulk} (hbulks : Decimal count bulks.length)
    (hsizes : ∀ bulk ∈ bulks, Decimal bulk.size bulk.arg.length) {cut : Nat}
    (hcut : cut < (arrayBytes count bulks).length) :
    readCommandWith alloc (arrive ((arrayBytes count bulks).take cut)) = (.ok none, [])
      ∨ Stops (alloc.Refuses (bulks.length * 24) ∨ ∃ bulk ∈ bulks, alloc.Refuses (bulk.arg.length + 2))
        (readCommandWith alloc (arrive ((arrayBytes count bulks).take cut)))
      ∨ (∃ digits, digits <+: count ∧ digits ≠ [] ∧ number digits = 0)
        ∧ readCommandWith alloc (arrive ((arrayBytes count bulks).take cut)) = (.ok (some []), []) := by
  have hmark : (42 : UInt8) ≠ 10 ∧ (42 : UInt8) ≠ 13 := by decide
  have hnotMem := header_notMem hmark.1 hbulks.digits
  by_cases hheader : cut ≤ (42 :: count ++ [13]).length
  · rw [arrayBytes, List.take_append_of_le_length hheader]
    by_cases hzero : cut = 0
    · rw [hzero]
      exact .inl rfl
    · obtain ⟨digits, hprefix, hdigits, hchomp⟩ :=
        chomp_take_header hmark hbulks.digits (Nat.pos_of_ne_zero hzero)
      have hline := readLine_end (notMem_take hnotMem cut) (by simp [hzero])
      rw [hchomp] at hline
      have hless := number_le_of_prefix hprefix
      rw [hbulks.value_eq] at hless
      obtain ⟨hstops, -⟩ | ⟨hnonempty, hnumber, hread⟩ | ⟨hnumber, -, hread⟩ :=
        readCommand_of_header hdigits hline
      · exact .inr (.inl (hstops.imp fun hwide =>
          .inl (alloc.larger hwide (Nat.mul_le_mul_right 24 hless))))
      · exact .inr (.inr ⟨⟨digits, hprefix, hnonempty, hnumber⟩, hread⟩)
      · -- arguments are announced and none is there
        obtain ⟨more, hmore⟩ := Nat.exists_eq_succ_of_ne_zero hnumber
        have hend : readLine [] = (.ok none, []) := rfl
        rw [hread, hmore]
        exact .inr (.inl (stops_bind (stops_bind (stops_bind_of_ok hend
          (stops_throw Failure.noConfusion Failure.noConfusion [])))))
  · obtain ⟨more, hmore⟩ : ∃ more, cut = (42 :: count ++ [13]).length + (more + 1) :=
      ⟨cut - (42 :: count ++ [13]).length - 1, by omega⟩
    have hline := readLine_line hnotMem (arrive ((bulks.flatMap Bulk.bytes).take more))
    have hsplit : arrive ((arrayBytes count bulks).take cut) = arrive (42 :: count ++ [13])
        ++ some 10 :: arrive ((bulks.flatMap Bulk.bytes).take more) := by
      rw [arrayBytes, hmore, List.take_length_add_append, List.take_succ_cons, arrive_line]
    have hshort : more < (bulks.flatMap Bulk.bytes).length := by
      rw [arrayBytes, List.length_append, List.length_cons] at hcut
      omega
    rw [chomp_header hmark hbulks.digits, ← hsplit] at hline
    refine .inr (.inl ?_)
    obtain ⟨hstops, -⟩ | ⟨-, hnumber, -⟩ | ⟨-, -, hread⟩ := readCommand_of_header hbulks.digits hline
    · rw [hbulks.value_eq] at hstops
      exact hstops.imp .inl
    · rw [hbulks.value_eq, List.length_eq_zero_iff] at hnumber
      rw [hnumber] at hshort
      exact absurd hshort (by simp)
    · rw [hread, hbulks.value_eq]
      exact stops_bind ((readBulks_take hsizes hshort).imp .inr)

theorem array_silent {count : Bytes} {bulks : List Bulk} (hbulks : Decimal count bulks.length)
    (hsizes : ∀ bulk ∈ bulks, Decimal bulk.size bulk.arg.length) {cut : Nat}
    (hcut : cut < (arrayBytes count bulks).length) (client : UInt32) (seq : UInt64) :
    (resp.session client seq (arrive ((arrayBytes count bulks).take cut))).Silent := by
  obtain hread | hstops | ⟨-, hread⟩ := @readCommand_take .whole _ _ hbulks hsizes _ hcut
  · refine Frontend.session_silent_of_close ?_
    change received (readCommandWith .whole _).1 = _
    rw [hread]
    rfl
  · exact Frontend.session_silent_of_close (read_of_aborts hstops.aborts)
  · refine Frontend.session_silent_of_again rfl ?_
    change (received (readCommandWith .whole _).1, (readCommandWith .whole _).2) = _
    rw [hread]
    rfl

theorem inline_silent_iff {line : Bytes} (hline : 10 ∉ line) (hmark : line.head? ≠ some 42)
    (client : UInt32) (seq : UInt64) :
    (resp.session client seq (arrive line)).Silent
      ↔ ¬ writes (tokens isAsciiWhitespace (chomp line)) = true := by
  by_cases hempty : line = []
  · rw [hempty]
    exact iff_of_true (Frontend.session_silent_of_close rfl) (by decide)
  · have hread := readLine_end hline hempty
    by_cases hchomp : chomp line = []
    · rw [hchomp] at hread ⊢
      refine iff_of_true (Frontend.session_silent_of_again rfl ?_) (by decide)
      change (received (readCommand _).1, (readCommand _).2) = _
      rw [readCommand, readCommandWith, bind_of_ok hread]
      rfl
    · have hhead : (chomp line).head? ≠ some 42 := by
        rw [head?_chomp hchomp]
        exact hmark
      have hcommand : readCommand (arrive line)
          = (.ok (some (tokens isAsciiWhitespace (chomp line))), []) := by
        rw [readCommand, readCommandWith, bind_of_ok hread]
        dsimp only
        rw [if_neg hchomp, if_neg hhead]
        rfl
      have hreceived : resp.read (arrive line)
          = (received (.ok (some (tokens isAsciiWhitespace (chomp line)))), []) := by
        change (received (readCommand _).1, (readCommand _).2) = _
        rw [hcommand]
      by_cases htokens : tokens isAsciiWhitespace (chomp line) = []
      · rw [htokens] at hreceived ⊢
        exact iff_of_true (Frontend.session_silent_of_again rfl hreceived) (by decide)
      · rw [received, if_neg htokens] at hreceived
        exact (Frontend.session_silent_iff rfl hreceived).trans (serve_silent_iff client seq _)

end Resp

namespace Memcache

def words (line : Bytes) : List Bytes := tokens (· = 32) line

theorem readLine_end {line : Bytes} (hline : 10 ∉ line) (hnonempty : line ≠ []) :
    readLine (arrive line) = (.ok (some (chomp line)), []) := Resp.readLine_end hline hnonempty

theorem readLine_line {line : Bytes} (hline : 10 ∉ line) (rest : Source) :
    readLine (arrive line ++ some 10 :: rest) = (.ok (some (chomp (line ++ [10]))), rest) :=
  Resp.readLine_line hline rest

/-- The name of a command is read in full once a second word has begun. -/
theorem name_words_take {line : Bytes} {count : Nat} (hwords : 2 ≤ (words (line.take count)).length) :
    name (words (line.take count)) = name (words line) := by
  have hhead : (words (line.take count ++ line.drop count)).head? = (words (line.take count)).head? :=
    head?_tokens_append _ hwords
  rw [List.take_append_drop] at hhead
  rw [name, name, List.headD_eq_head?_getD, List.headD_eq_head?_getD]
  exact congrArg (fun word => (word.getD []).map asciiLower) hhead.symm

theorem isStorage_congr {parts parts' : List Bytes} (hname : name parts = name parts') :
    isStorage parts = isStorage parts' := by
  rw [isStorage, isStorage, hname]

theorem chomp_take {line : Bytes} (hline : 10 ∉ line ∧ 13 ∉ line) (cut : Nat) :
    chomp ((line ++ [13]).take cut) = line.take cut := by
  rw [List.take_append]
  refine chomp_append ⟨notMem_take hline.1 cut, notMem_take hline.2 cut⟩ fun byte hmem => ?_
  exact .inr (List.mem_singleton.mp (List.mem_of_mem_take hmem))

theorem readLine_take {line : Bytes} (hline : 10 ∉ line ∧ 13 ∉ line) {cut : Nat} (hcut : 0 < cut) :
    readLine (arrive ((line ++ [13]).take cut)) = (.ok (some (line.take cut)), []) := by
  have hnotMem : 10 ∉ (line ++ [13]).take cut := notMem_take (by simp [hline.1]) cut
  rw [readLine_end hnotMem (by simp; omega), chomp_take hline]

theorem read_of_line {source rest : Source} {line : Bytes}
    (hread : readLine source = (.ok (some line), rest)) :
    memcache.read source = (if words line = [] then pure .again
      else if isStorage (words line) ∧ 5 ≤ (words line).length then do
        match ← (readData (parseUsize ((words line).getD 4 []))).run with
        | .ok data => pure (.request { parts := words line, data })
        | .error _ => pure .close
      else pure (.request { parts := words line, data := [] }) : Reading (Received Command)) rest := by
  change Memcache.read source = _
  rw [Memcache.read, run_bind_of_eq hread]
  rfl

theorem read_request {source rest : Source} {line : Bytes}
    (hread : readLine source = (.ok (some line), rest)) (hwords : words line ≠ [])
    (hstorage : ¬ (isStorage (words line) ∧ 5 ≤ (words line).length)) :
    memcache.read source = (.request { parts := words line, data := [] }, rest) := by
  rw [read_of_line hread, if_neg hwords, if_neg hstorage]
  rfl

theorem read_again {source rest : Source} {line : Bytes}
    (hread : readLine source = (.ok (some line), rest)) (hwords : words line = []) :
    memcache.read source = (.again, rest) := by
  rw [read_of_line hread, if_pos hwords]
  rfl

theorem read_close {source rest : Source} {line : Bytes}
    (hread : readLine source = (.ok (some line), rest))
    (hstorage : isStorage (words line) ∧ 5 ≤ (words line).length)
    (hdata : Aborts (readData (parseUsize ((words line).getD 4 [])) rest)) :
    (memcache.read source).1 = .close := by
  have hwords : words line ≠ [] := List.ne_nil_of_length_pos (by omega)
  obtain ⟨failure, hfailure, -⟩ := hdata
  rw [read_of_line hread, if_neg hwords, if_pos hstorage, run_bind_of_eq (Prod.ext hfailure rfl)]
  rfl

theorem aborts_readData {input : Bytes} {length : Nat} (hlength : length + 2 < 2 ^ 63)
    (hshort : input.length < length + 2) : Aborts (readData length (arrive input)) := by
  have hsize : (length + 2) % 2 ^ 64 = length + 2 := Nat.mod_eq_of_lt (by omega)
  rw [readData, hsize]
  dsimp only
  rw [if_neg (by omega)]
  exact aborts_bind (aborts_readExact hshort)

theorem parseUsize_decimal {text : Bytes} {value : Nat} (htext : Decimal text value)
    (hvalue : value < 2 ^ 64) : parseUsize text = value := by
  rw [parseUsize, fromUtf8_digits htext.digits, Option.bind_some, String.toList_ofList,
    parseUsize_digits htext.digits htext.nonempty, htext.value_eq, if_pos hvalue]
  rfl

/-- Cut short, an announced length only gets smaller. -/
theorem parseUsize_le {text rest : Bytes} {value : Nat} (htext : Decimal (text ++ rest) value)
    (hvalue : value < 2 ^ 64) : parseUsize text ≤ value := by
  by_cases hempty : text = []
  · rw [hempty]
    exact Nat.zero_le _
  · have hdigits : text.all isDigit := by
      have hall := htext.digits
      rw [List.all_append, Bool.and_eq_true] at hall
      exact hall.1
    have hle : number text ≤ value := by
      rw [← htext.value_eq]
      exact number_le_append text rest
    rw [parseUsize_decimal ⟨hempty, hdigits, rfl⟩ (by omega)]
    exact hle

/-- A storage command: the line, and the data block its fifth word announces. -/
structure Storage (line data : Bytes) : Prop where
  line_notMem : 10 ∉ line ∧ 13 ∉ line
  storage : isStorage (words line)
  enough : 5 ≤ (words line).length
  announced : Decimal ((words line).getD 4 []) data.length
  fits : data.length + 2 < 2 ^ 63

theorem storage_silent {line data : Bytes} (hstorage : Storage line data) {cut : Nat}
    (hcut : cut < ((line ++ [13]) ++ 10 :: (data ++ [13, 10])).length) (client : UInt32) (seq : UInt64) :
    (memcache.session client seq
      (arrive (((line ++ [13]) ++ 10 :: (data ++ [13, 10])).take cut))).Silent := by
  have hnotMem : 10 ∉ line ++ [13] := by simp [hstorage.line_notMem.1]
  by_cases hline : cut ≤ (line ++ [13]).length
  · rw [List.take_append_of_le_length hline]
    by_cases hzero : cut = 0
    · rw [hzero]
      exact Frontend.session_silent_of_close rfl
    · have hread := readLine_take hstorage.line_notMem (Nat.pos_of_ne_zero hzero)
      by_cases hwords : words (line.take cut) = []
      · exact Frontend.session_silent_of_again rfl (read_again hread hwords)
      · by_cases hpart : isStorage (words (line.take cut)) ∧ 5 ≤ (words (line.take cut)).length
        · -- the announced length may be cut short, and nothing follows
          refine Frontend.session_silent_of_close (read_close hread hpart ?_)
          obtain ⟨word, hword⟩ : ∃ word, (words (line.take cut))[4]? = some word :=
            ⟨_, List.getElem?_eq_getElem (by omega)⟩
          obtain ⟨rest, hrest⟩ : ∃ rest, (words (line.take cut ++ line.drop cut))[4]?
              = some (word ++ rest) := getElem?_tokens_append _ hword
          rw [List.take_append_drop] at hrest
          have hannounced := hstorage.announced
          rw [List.getD_eq_getElem?_getD, hrest, Option.getD_some] at hannounced
          have hle := parseUsize_le hannounced (by have := hstorage.fits; omega)
          have hfits := hstorage.fits
          rw [List.getD_eq_getElem?_getD, hword, Option.getD_some]
          have hend : ([] : Bytes).length < parseUsize word + 2 := Nat.succ_pos _
          exact aborts_readData (by omega) hend
        · refine (Frontend.session_silent_iff rfl (read_request hread hwords hpart)).mpr ?_
          refine (serve_silent_iff client seq _).mpr (writes_eq_false hpart ?_ ?_)
          all_goals
            rintro ⟨hname, hlength⟩
            rw [name_words_take (by omega)] at hname
            obtain hword | hword | hword := name_of_isStorage hstorage.storage <;> rw [hword] at hname <;>
              exact absurd hname (by decide)
  · obtain ⟨more, hmore⟩ : ∃ more, cut = (line ++ [13]).length + (more + 1) :=
      ⟨cut - (line ++ [13]).length - 1, by omega⟩
    have hread := readLine_line hnotMem (arrive ((data ++ [13, 10]).take more))
    have hsplit : arrive (((line ++ [13]) ++ 10 :: (data ++ [13, 10])).take cut)
        = arrive (line ++ [13]) ++ some 10 :: arrive ((data ++ [13, 10]).take more) := by
      rw [hmore, List.take_length_add_append, List.take_succ_cons, arrive_line]
    have hchomp : chomp (line ++ [13] ++ [10]) = line := by
      rw [List.append_assoc]
      exact chomp_append hstorage.line_notMem (by simp)
    rw [hchomp, ← hsplit] at hread
    refine Frontend.session_silent_of_close (read_close hread ⟨hstorage.storage, hstorage.enough⟩ ?_)
    have hfits := hstorage.fits
    rw [parseUsize_decimal hstorage.announced (by omega)]
    refine aborts_readData hfits ?_
    rw [List.length_append, List.length_cons, List.length_append, List.length_append] at hcut
    rw [List.length_append] at hmore
    simp only [List.length_take, List.length_append, List.length_cons, List.length_nil] at hcut hmore ⊢
    omega

theorem line_silent_iff {line : Bytes} (hline : 10 ∉ line ∧ 13 ∉ line)
    (hstorage : isStorage (words line) = false) (cut : Nat) (client : UInt32) (seq : UInt64) :
    (memcache.session client seq (arrive ((line ++ [13]).take cut))).Silent
      ↔ ¬ writes { parts := words (chomp ((line ++ [13]).take cut)), data := [] } = true := by
  rw [chomp_take hline]
  by_cases hzero : cut = 0
  · rw [hzero, List.take_zero, List.take_zero]
    exact iff_of_true (Frontend.session_silent_of_close rfl) (by decide)
  · have hread := readLine_take hline (Nat.pos_of_ne_zero hzero)
    by_cases hwords : words (line.take cut) = []
    · have hsilent : (memcache.session client seq (arrive ((line ++ [13]).take cut))).Silent :=
        Frontend.session_silent_of_again rfl (read_again hread hwords)
      rw [hwords]
      exact iff_of_true hsilent (by decide)
    · have hpart : ¬ (isStorage (words (line.take cut)) ∧ 5 ≤ (words (line.take cut)).length) := by
        rintro ⟨hpart, hlength⟩
        rw [isStorage_congr (name_words_take (by omega)), hstorage] at hpart
        cases hpart
      exact (Frontend.session_silent_iff rfl (read_request hread hwords hpart)).trans
        (serve_silent_iff client seq _)

end Memcache

theorem Txn.line_silent_iff {line : Bytes} (hline : 10 ∉ line) (client : UInt32) (conn : Txn.Conn) :
    (txn.session client conn (arrive line)).Silent
      ↔ ¬ writes conn (tokens isWhitespace (fromUtf8Lossy line).toList) = true := by
  have hwrites : ¬ writes conn [] = true := by
    rw [writes]
    split <;> decide
  have hread : txn.read (arrive line) = (if line = [] then pure .close
      else if tokens isWhitespace (fromUtf8Lossy line).toList = [] then pure .again
      else pure (.request (tokens isWhitespace (fromUtf8Lossy line).toList)) :
        Reading (Received (List (List Char)))) [] := by
    change Txn.read (arrive line) = _
    rw [Txn.read, run_bind_of_eq (readUntilNewline_end hline)]
  by_cases hempty : line = []
  · rw [hempty]
    exact iff_of_true (Frontend.session_silent_of_close rfl) hwrites
  · rw [if_neg hempty] at hread
    by_cases hwords : tokens isWhitespace (fromUtf8Lossy line).toList = []
    · rw [if_pos hwords] at hread
      rw [hwords]
      exact iff_of_true (Frontend.session_silent_of_again rfl hread) hwrites
    · rw [if_neg hwords] at hread
      exact (Frontend.session_silent_iff rfl hread).trans (serve_silent_iff client conn _)

namespace StreamLog

/-- The parts of a line, as `PUB` and `SUB` take them. -/
def lineParts (line : Bytes) : List (List Char) :=
  (splitN ' ' 3 (trimEndMatches ['\r', '\n'] (fromUtf8Lossy line).toList)).map trimEnd

theorem streamlog_serve (client : UInt32) (seq : UInt64) (parts : List (List Char)) :
    streamlog.serve client seq parts = serve client seq parts := rfl

theorem line_silent_iff {line : Bytes} (hline : 10 ∉ line) (client : UInt32) (seq : UInt64) :
    (streamlog.session client seq (arrive line)).Silent ↔ ¬ isPub (lineParts line) = true := by
  have hread : streamlog.read (arrive line) = (if line = [] then pure .close
      else if (lineParts line).headD [] = [] then pure .again
      else pure (.request (lineParts line)) : Reading (Received (List (List Char)))) [] := by
    change StreamLog.read (arrive line) = _
    rw [StreamLog.read, run_bind_of_eq (readUntilNewline_end hline)]
    rfl
  by_cases hempty : line = []
  · rw [hempty]
    exact iff_of_true (Frontend.session_silent_of_close rfl) (by decide)
  · rw [if_neg hempty] at hread
    by_cases hhead : (lineParts line).headD [] = []
    · rw [if_pos hhead] at hread
      refine iff_of_true (Frontend.session_silent_of_again rfl hread) ?_
      rw [isPub, name, hhead]
      simp
    · rw [if_neg hhead] at hread
      refine (Frontend.session_silent_iff rfl hread).trans ?_
      rw [streamlog_serve]
      exact serve_silent_iff client seq (lineParts line)

end StreamLog

namespace Http

def text (line : Bytes) : List Char := (fromUtf8Lossy line).toList

/-- The lines of what has arrived, each with its newline; the last one has none. -/
def lines : Bytes → List Bytes
  | [] => [[]]
  | byte :: rest => if byte = 10 then [10] :: lines rest else (lines rest).modifyHead (byte :: ·)

/-- What the header lines say, up to an empty one. -/
def collect (headers : Headers) : List Bytes → Headers
  | [] => headers
  | line :: more =>
      if trimEnd (text line) = [] then headers else collect (headers.add (trimEnd (text line))) more

/-- The header lines of a request and the empty line behind them. -/
def head (headers : List Bytes) : Bytes := headers.flatMap (· ++ [10]) ++ [13, 10]

theorem lines_end {line : Bytes} (hline : 10 ∉ line) : lines line = [line] := by
  induction line with
  | nil => rfl
  | cons byte line ih =>
      have hbyte : byte ≠ 10 := fun heq => hline (heq ▸ List.mem_cons_self)
      rw [lines, if_neg hbyte, ih fun hmem => hline (List.mem_cons_of_mem byte hmem)]
      rfl

theorem lines_line {line : Bytes} (hline : 10 ∉ line) (rest : Bytes) :
    lines (line ++ 10 :: rest) = (line ++ [10]) :: lines rest := by
  induction line with
  | nil => rfl
  | cons byte line ih =>
      have hbyte : byte ≠ 10 := fun heq => hline (heq ▸ List.mem_cons_self)
      rw [List.cons_append, lines, if_neg hbyte, ih fun hmem => hline (List.mem_cons_of_mem byte hmem)]
      rfl

theorem readLine_of_ok {source rest : Source} {line : Bytes}
    (hread : readUntilNewline source = (.ok line, rest)) :
    readLine source = (.ok (text line), rest) := by
  rw [readLine, bind_of_ok hread]
  rfl

theorem readHeaders_of_line {source rest : Source} {line : Bytes} (fuel : Nat) (headers : Headers)
    (hread : readUntilNewline source = (.ok line, rest)) :
    readHeaders (fuel + 1) headers source = if trimEnd (text line) = [] then (.ok headers, rest)
      else readHeaders fuel (headers.add (trimEnd (text line))) rest := by
  rw [readHeaders, bind_of_ok (readLine_of_ok hread)]
  split <;> rfl

/-- At the end of the stream the header loop ends as at an empty line. -/
theorem readHeaders_end {line : Bytes} (hline : 10 ∉ line) {fuel : Nat} (hfuel : line.length < fuel)
    (headers : Headers) :
    readHeaders fuel headers (arrive line) = (.ok (collect headers (lines line)), []) := by
  obtain ⟨fuel, rfl⟩ := Nat.exists_eq_succ_of_ne_zero (Nat.ne_of_gt (Nat.zero_lt_of_lt hfuel))
  rw [readHeaders_of_line fuel headers (readUntilNewline_end hline), lines_end hline]
  simp only [collect]
  split
  · rfl
  · rename_i hblank
    cases fuel with
    | zero => rfl
    | succ fuel =>
        have hread : readUntilNewline [] = (.ok [], []) := rfl
        rw [readHeaders_of_line fuel _ hread]
        rfl

theorem readHeaders_take {headers : List Bytes}
    (hheaders : ∀ header ∈ headers, 10 ∉ header ∧ trimEnd (text (header ++ [10])) ≠ [])
    {cut fuel : Nat} (hcut : cut < (head headers).length)
    (hfuel : ((head headers).take cut).length < fuel) (start : Headers) :
    readHeaders fuel start (arrive ((head headers).take cut))
      = (.ok (collect start (lines ((head headers).take cut))), []) := by
  induction headers generalizing cut fuel start with
  | nil =>
      have htake : (head []).take cut = [13].take cut := by
        have hlength : cut < 2 := hcut
        change (([13] : Bytes) ++ [10]).take cut = _
        exact List.take_append_of_le_length (Nat.le_of_lt_succ hlength)
      rw [htake] at hfuel ⊢
      exact readHeaders_end (notMem_take (by decide) cut) hfuel start
  | cons header headers ih =>
      obtain ⟨hnotMem, hblank⟩ := hheaders header List.mem_cons_self
      have hhead : head (header :: headers) = header ++ 10 :: head headers := by
        simp [head]
      rw [hhead] at hcut hfuel ⊢
      by_cases hfirst : cut ≤ header.length
      · rw [List.take_append_of_le_length hfirst] at hfuel ⊢
        exact readHeaders_end (notMem_take hnotMem cut) hfuel start
      · obtain ⟨more, rfl⟩ : ∃ more, cut = header.length + (more + 1) :=
          ⟨cut - header.length - 1, by omega⟩
        rw [List.take_length_add_append, List.take_succ_cons] at hfuel ⊢
        rw [List.length_append, List.length_cons] at hcut hfuel
        obtain ⟨fuel, rfl⟩ := Nat.exists_eq_succ_of_ne_zero (Nat.ne_of_gt (Nat.zero_lt_of_lt hfuel))
        have hread := readUntilNewline_line hnotMem (arrive ((head headers).take more))
        rw [arrive_line, readHeaders_of_line fuel start hread, if_neg hblank, lines_line hnotMem, collect,
          if_neg hblank]
        exact ih (fun other hmem => hheaders other (List.mem_cons_of_mem header hmem)) (by omega)
          (by omega) _

theorem readHeaders_whole {headers : List Bytes}
    (hheaders : ∀ header ∈ headers, 10 ∉ header ∧ trimEnd (text (header ++ [10])) ≠ [])
    {fuel : Nat} (hfuel : (head headers).length < fuel) (start : Headers) (rest : Bytes) :
    readHeaders fuel start (arrive (head headers ++ rest))
        = (.ok (collect start (headers.map (· ++ [10]))), arrive rest)
      ∧ collect start (lines (head headers ++ rest)) = collect start (headers.map (· ++ [10])) := by
  induction headers generalizing fuel start with
  | nil =>
      obtain ⟨fuel, rfl⟩ := Nat.exists_eq_succ_of_ne_zero (Nat.ne_of_gt (Nat.zero_lt_of_lt hfuel))
      have hblank : trimEnd (text [13, 10]) = [] := by decide
      have hreturn : (10 : UInt8) ∉ ([13] : Bytes) := by decide
      have hread : readUntilNewline (arrive (head [] ++ rest)) = (.ok [13, 10], arrive rest) :=
        readUntilNewline_line hreturn (arrive rest)
      have hlines : lines (head [] ++ rest) = [13, 10] :: lines rest := lines_line hreturn rest
      rw [readHeaders_of_line fuel start hread, hlines, collect, if_pos hblank, if_pos hblank]
      exact ⟨rfl, rfl⟩
  | cons header headers ih =>
      obtain ⟨hnotMem, hblank⟩ := hheaders header List.mem_cons_self
      have hhead : head (header :: headers) ++ rest = header ++ 10 :: (head headers ++ rest) := by
        simp [head]
      obtain ⟨fuel, rfl⟩ := Nat.exists_eq_succ_of_ne_zero (Nat.ne_of_gt (Nat.zero_lt_of_lt hfuel))
      have hread := readUntilNewline_line hnotMem (arrive (head headers ++ rest))
      have hlength : (head (header :: headers)).length = header.length + 1 + (head headers).length := by
        simp [head]
        omega
      rw [hhead, arrive_line, readHeaders_of_line fuel start hread, if_neg hblank, lines_line hnotMem,
        List.map_cons, collect, if_neg hblank, collect, if_neg hblank]
      exact ih (fun other hmem => hheaders other (List.mem_cons_of_mem header hmem)) (by omega) _

/-- A request with method and path, headers that are not empty lines, and the announced body. -/
structure Formed (line : Bytes) (headers : List Bytes) (body : Bytes) : Prop where
  line_notMem : 10 ∉ line
  named : ∃ method path more, tokens isWhitespace (text (line ++ [10])) = method :: path :: more
  headers_formed : ∀ header ∈ headers, 10 ∉ header ∧ trimEnd (text (header ++ [10])) ≠ []
  announced : (collect {} (headers.map (· ++ [10]))).contentLength = body.length

/-- The first line of what has arrived names a write, and its headers announce no body. -/
def executes (part : Bytes) : Bool :=
  match tokens isWhitespace (text ((lines part).headD [])) with
  | method :: path :: _ => writes method path && (collect {} (lines part).tail).contentLength = 0
  | _ => false

theorem read_of_line {source rest : Source} {line : Bytes} (hnonempty : text line ≠ [])
    (hread : readUntilNewline source = (.ok line, rest)) :
    http.read source = (match tokens isWhitespace (text line) with
      | method :: path :: _ => do
          match ← readAllHeaders.run with
          | .error _ => pure .close
          | .ok headers =>
              match ← (readBody headers.contentLength).run with
              | .error _ => pure .close
              | .ok body => pure (.request { method, path, body, keepAlive := headers.keepAlive })
      | _ => pure .again : Reading (Received Request)) rest := by
  change Http.read source = _
  rw [Http.read, run_bind_of_eq (readLine_of_ok hread)]
  exact congrFun (if_neg hnonempty) rest

theorem text_ne_nil {line : Bytes} (hnonempty : line ≠ []) : text line ≠ [] := by
  cases line with
  | nil => exact absurd rfl hnonempty
  | cons byte line =>
      rw [text, fromUtf8Lossy, scan_cons, String.toList_ofList]
      exact List.cons_ne_nil _ _

theorem aborts_readBody {input : Bytes} {length : Nat} (hshort : input.length < length) :
    Aborts (readBody length (arrive input)) := by
  rw [readBody]
  split
  · exact ⟨.capacity, rfl, Failure.noConfusion⟩
  · exact aborts_readExact hshort

section

variable {source rest : Source} {line : Bytes} {method path : List Char} {more : List (List Char)}
  {headers : Headers} (hread : readUntilNewline source = (.ok line, rest))
  (hwords : tokens isWhitespace (text line) = method :: path :: more)

include hread hwords

theorem read_of_headers {left : Source} (hheaders : readAllHeaders rest = (.ok headers, left)) :
    http.read source = (do
      match ← (readBody headers.contentLength).run with
      | .error _ => pure .close
      | .ok body => pure (.request { method, path, body, keepAlive := headers.keepAlive }) :
        Reading (Received Request)) left := by
  have hnonempty : text line ≠ [] := by
    intro hempty
    rw [hempty] at hwords
    cases hwords
  rw [read_of_line hnonempty hread, hwords]
  dsimp only
  rw [run_bind_of_eq hheaders]

theorem read_close_of_body {left : Source} (hheaders : readAllHeaders rest = (.ok headers, left))
    (hbody : Aborts (readBody headers.contentLength left)) : (http.read source).1 = .close := by
  obtain ⟨failure, hfailure, -⟩ := hbody
  rw [read_of_headers hread hwords hheaders, run_bind_of_eq (Prod.ext hfailure rfl)]
  rfl

/-- The stream has ended in the headers: what counts is the length announced so far. -/
theorem silent_iff_of_headers (hheaders : readAllHeaders rest = (.ok headers, [])) (client : UInt32)
    (seq : UInt64) : (http.session client seq source).Silent
      ↔ ¬ (writes method path && headers.contentLength = 0) = true := by
  by_cases hlength : headers.contentLength = 0
  · have hbody : readBody 0 [] = (.ok [], []) := rfl
    have hrequest : http.read source
        = (.request { method, path, body := [], keepAlive := headers.keepAlive }, []) := by
      rw [read_of_headers hread hwords hheaders, hlength, run_bind_of_eq hbody]
      rfl
    rw [hlength, decide_eq_true rfl, Bool.and_true]
    exact (Frontend.session_silent_iff rfl hrequest).trans (serve_silent_iff client seq _)
  · have hshort : ([] : Bytes).length < headers.contentLength := Nat.pos_of_ne_zero hlength
    refine iff_of_true (Frontend.session_silent_of_close ?_) (by simp [hlength])
    exact read_close_of_body hread hwords hheaders (aborts_readBody hshort)

end

theorem executes_of_words {part first : Bytes} {rest : List Bytes} {method path : List Char}
    {more : List (List Char)} (hlines : lines part = first :: rest)
    (hwords : tokens isWhitespace (text first) = method :: path :: more) :
    executes part = (writes method path && (collect {} rest).contentLength = 0) := by
  rw [executes, hlines, List.headD_cons, hwords]
  rfl

theorem line_silent_iff {part : Bytes} (hpart : 10 ∉ part) (client : UInt32) (seq : UInt64) :
    (http.session client seq (arrive part)).Silent ↔ ¬ executes part = true := by
  by_cases hempty : part = []
  · rw [hempty]
    exact iff_of_true (Frontend.session_silent_of_close rfl) (by decide)
  · have hread := readUntilNewline_end hpart
    have hlines := lines_end hpart
    match hwords : tokens isWhitespace (text part) with
    | method :: path :: more =>
        rw [executes_of_words hlines hwords]
        exact silent_iff_of_headers hread hwords rfl client seq
    | [] =>
        have hagain : http.read (arrive part) = (.again, []) := by
          rw [read_of_line (text_ne_nil hempty) hread, hwords]
          rfl
        refine iff_of_true (Frontend.session_silent_of_again rfl hagain) ?_
        rw [executes, hlines, List.headD_cons, hwords]
        exact Bool.false_ne_true
    | [method] =>
        have hagain : http.read (arrive part) = (.again, []) := by
          rw [read_of_line (text_ne_nil hempty) hread, hwords]
          rfl
        refine iff_of_true (Frontend.session_silent_of_again rfl hagain) ?_
        rw [executes, hlines, List.headD_cons, hwords]
        exact Bool.false_ne_true

theorem request_silent_iff {line body : Bytes} {headers : List Bytes}
    (hformed : Formed line headers body) {cut : Nat}
    (hcut : cut < (line ++ 10 :: (head headers ++ body)).length) (client : UInt32) (seq : UInt64) :
    (http.session client seq (arrive ((line ++ 10 :: (head headers ++ body)).take cut))).Silent
      ↔ ¬ executes ((line ++ 10 :: (head headers ++ body)).take cut) = true := by
  obtain ⟨hline, ⟨method, path, words, hwords⟩, hheaders, hannounced⟩ := hformed
  by_cases hfirst : cut ≤ line.length
  · rw [List.take_append_of_le_length hfirst]
    exact line_silent_iff (notMem_take hline cut) client seq
  · obtain ⟨more, rfl⟩ : ∃ more, cut = line.length + (more + 1) := ⟨cut - line.length - 1, by omega⟩
    rw [List.length_append, List.length_cons, List.length_append] at hcut
    rw [List.take_length_add_append, List.take_succ_cons]
    have hlines := lines_line hline ((head headers ++ body).take more)
    have hread := readUntilNewline_line hline (arrive ((head headers ++ body).take more))
    rw [← arrive_line] at hread
    rw [executes_of_words hlines hwords]
    by_cases hhead : more < (head headers).length
    · rw [List.take_append_of_le_length (Nat.le_of_lt hhead)] at hread ⊢
      refine silent_iff_of_headers hread hwords ?_ client seq
      exact readHeaders_take hheaders hhead (by rw [arrive, List.length_map]; exact Nat.lt_succ_self _) {}
    · -- the head is complete, so it is the body that is cut short
      obtain ⟨count, rfl⟩ := Nat.exists_eq_add_of_le (Nat.le_of_not_lt hhead)
      rw [List.take_length_add_append] at hread ⊢
      have hall : (head headers).length < (arrive (head headers ++ body.take count)).length + 1 := by
        rw [arrive, List.length_map, List.length_append]
        omega
      obtain ⟨hread', hcollect⟩ := readHeaders_whole hheaders hall {} (body.take count)
      have hshort : (body.take count).length < body.length := by
        rw [List.length_take]
        omega
      rw [← hannounced] at hshort
      refine iff_of_true (Frontend.session_silent_of_close ?_) ?_
      · exact read_close_of_body hread hwords hread' (aborts_readBody hshort)
      · rw [hcollect, Bool.and_eq_true, decide_eq_true_eq]
        omega

end Http

/-- A request as a client sends it. -/
inductive Message where
  | respInline (line : Bytes)
  | respArray (count : Bytes) (bulks : List Resp.Bulk)
  | memcacheLine (line : Bytes)
  | memcacheStorage (line data : Bytes)
  | http (line : Bytes) (headers : List Bytes) (body : Bytes)
  | txn (line : Bytes)
  | streamlog (line : Bytes)

namespace Message

def app : Message → App
  | respInline _ | respArray .. => .resp
  | memcacheLine _ | memcacheStorage .. => .memcache
  | http .. => .http
  | txn _ => .txn
  | streamlog _ => .streamlog

def bytes : Message → Bytes
  | respInline line | txn line | streamlog line => line ++ [10]
  | respArray count bulks => Resp.arrayBytes count bulks
  | memcacheLine line => (line ++ [13]) ++ [10]
  | memcacheStorage line data => (line ++ [13]) ++ 10 :: (data ++ [13, 10])
  | http line headers body => line ++ 10 :: (Http.head headers ++ body)

/-- The lengths announced are those of what follows, and no line ends early. -/
def WellFormed : Message → Prop
  | respInline line => 10 ∉ line ∧ line.head? ≠ some 42
  | respArray count bulks =>
      Decimal count bulks.length ∧ ∀ bulk ∈ bulks, Decimal bulk.size bulk.arg.length
  | memcacheLine line =>
      (10 ∉ line ∧ 13 ∉ line) ∧ Memcache.isStorage (Memcache.words line) = false
  | memcacheStorage line data => Memcache.Storage line data
  | http line headers body => Http.Formed line headers body
  | txn line | streamlog line => 10 ∉ line

/-- The part received already has the words of a write command; over HTTP it also announces no
body. -/
def ReadsAsWrite : (message : Message) → message.app.frontend.Conn → Bytes → Prop
  | respInline _, _, part => Resp.writes (tokens isAsciiWhitespace (chomp part))
  | respArray .., _, _ => False
  | memcacheLine _, _, part => Memcache.writes { parts := Memcache.words (chomp part), data := [] }
  | memcacheStorage .., _, _ => False
  | http .., _, part => Http.executes part
  | txn _, conn, part => Txn.writes conn (tokens isWhitespace (fromUtf8Lossy part).toList)
  | streamlog _, _, part => StreamLog.isPub (StreamLog.lineParts part)

end Message

/-- The peer sends a part of a request and closes the connection: no write op is issued, whatever the
service answers, exactly if the part does not read as a write. -/
theorem cut_request_silent_iff (message : Message) (hformed : message.WellFormed) (client : UInt32)
    (conn : message.app.frontend.Conn) {cut : Nat} (hcut : cut < message.bytes.length) :
    (message.app.frontend.session client conn (arrive (message.bytes.take cut))).Silent
      ↔ ¬ message.ReadsAsWrite conn (message.bytes.take cut) := by
  have hterminated : ∀ line : Bytes, cut < (line ++ [10]).length →
      (line ++ [10]).take cut = line.take cut := by
    intro line hlength
    rw [List.length_append, List.length_singleton] at hlength
    exact List.take_append_of_le_length (by omega)
  cases message with
  | respInline line =>
      change (resp.session client conn (arrive ((line ++ [10]).take cut))).Silent
        ↔ ¬ Resp.writes (tokens isAsciiWhitespace (chomp ((line ++ [10]).take cut))) = true
      rw [hterminated line hcut]
      refine Resp.inline_silent_iff (notMem_take hformed.1 cut) ?_ client conn
      cases cut with
      | zero => exact nofun
      | succ cut =>
          rw [List.head?_take, if_neg (Nat.succ_ne_zero cut)]
          exact hformed.2
  | respArray count bulks =>
      exact iff_of_true (Resp.array_silent hformed.1 hformed.2 hcut client conn) not_false
  | memcacheLine line =>
      change (memcache.session client conn (arrive (((line ++ [13]) ++ [10]).take cut))).Silent
        ↔ ¬ Memcache.writes
          { parts := Memcache.words (chomp (((line ++ [13]) ++ [10]).take cut)), data := [] } = true
      rw [hterminated (line ++ [13]) hcut]
      exact Memcache.line_silent_iff hformed.1 hformed.2 cut client conn
  | memcacheStorage line data =>
      exact iff_of_true (Memcache.storage_silent hformed hcut client conn) not_false
  | http line headers body => exact Http.request_silent_iff hformed hcut client conn
  | txn line =>
      change (txn.session client conn (arrive ((line ++ [10]).take cut))).Silent
        ↔ ¬ Txn.writes conn (tokens isWhitespace (fromUtf8Lossy ((line ++ [10]).take cut)).toList) = true
      rw [hterminated line hcut]
      exact Txn.line_silent_iff (notMem_take hformed cut) client conn
  | streamlog line =>
      change (streamlog.session client conn (arrive ((line ++ [10]).take cut))).Silent
        ↔ ¬ StreamLog.isPub (StreamLog.lineParts ((line ++ [10]).take cut)) = true
      rw [hterminated line hcut]
      exact StreamLog.line_silent_iff (notMem_take hformed cut) client conn

/-- A `PUT` of five bytes. -/
def putHello : Message :=
  .http (asBytes "PUT /k HTTP/1.1\r") [asBytes "Content-Length: 5\r"] (asBytes "hello")

theorem putHello_wellFormed : putHello.WellFormed where
  line_notMem := by decide
  named := ⟨"PUT".toList, "/k".toList, ["HTTP/1.1".toList], by decide +kernel⟩
  headers_formed := by decide +kernel
  announced := by decide +kernel

theorem cut_request_silent_iff_putHello :
    putHello.WellFormed ∧ putHello.bytes.take 39 = asBytes "PUT /k HTTP/1.1\r\nContent-Length: 5\r\n\r\nh"
      ∧ (putHello.app.frontend.session 1 (0 : UInt64) (arrive (putHello.bytes.take 39))).Silent := by
  refine ⟨putHello_wellFormed, by decide +kernel, ?_⟩
  refine (cut_request_silent_iff putHello putHello_wellFormed 1 (0 : UInt64) (by decide +kernel)).mpr ?_
  change ¬ Http.executes (putHello.bytes.take 39) = true
  decide +kernel

/-- Of `SET k value` on the transactional port, a client that is gone after `SET k va` has written
`va`. -/
theorem partial_set_executes :
    ¬ ∀ message : Message, message.WellFormed → ∀ (client : UInt32)
      (conn : message.app.frontend.Conn) (cut : Nat), cut < message.bytes.length →
        (message.app.frontend.session client conn (arrive (message.bytes.take cut))).Silent := by
  intro hsilent
  have hset := hsilent (.txn (asBytes "SET k value\r")) (by decide : 10 ∉ asBytes "SET k value\r") 1
    ({} : Txn.Conn) 8 (by decide)
  have hop : ∃ next, txn.session 1 ({} : Txn.Conn) (arrive (asBytes "SET k va"))
      = Conv.apply { client := 1, seq := 1, kind := .txn [("k", some (asBytes "va"))] } next :=
    ⟨_, rfl⟩
  obtain ⟨next, hnext⟩ := hop
  have hpart : ((Message.txn (asBytes "SET k value\r")).bytes).take 8 = asBytes "SET k va" := by decide
  rw [hpart] at hset
  change (txn.session 1 ({} : Txn.Conn) (arrive (asBytes "SET k va"))).Silent at hset
  rw [hnext] at hset
  exact Conv.not_silent_apply rfl hset

end OneBarrier
