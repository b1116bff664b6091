import OneBarrier.Proof.Publishing

/-!
# Consumers

A publish takes its offset with one op and stores the message with another, and a subscription reads the
length with one op and the messages with others. A consumer that reads the length between the two ops of
a publish steps over the message, and never comes back to it. A consumer that does not receives every
message, each once, in the order of the offsets.
-/

namespace OneBarrier

open Wire Utf8 Text

namespace StreamLog

/-! ### What a consumer reads out of a reply -/

/-- The line in front of a message. -/
def header (entry : Int64 × Bytes) : List Char :=
  "MSG ".toList ++ ((showI64 entry.1).toList ++ ' ' :: (toString entry.2.length).toList) ++ ['\r']

theorem header_eq (entry : Int64 × Bytes) : header entry = "MSG ".toList
    ++ ((showI64 entry.1).toList ++ ' ' :: (toString entry.2.length).toList) ++ ['\r'] := rfl

theorem render_cons (entry : Int64 × Bytes) (shown : List (Int64 × Bytes)) (more : Bytes) :
    render (entry :: shown) ++ more = asBytes (String.ofList (header entry))
      ++ 10 :: (entry.2 ++ (asBytes "\r\n" ++ (render shown ++ more))) := by
  have hline : "MSG " ++ showI64 entry.1 ++ " " ++ toString entry.2.length ++ "\r\n"
      = String.ofList (header entry) ++ "\n" := by
    refine String.toList_inj.mp ?_
    simp only [String.toList_append, String.toList_ofList, header_eq, List.append_assoc]
    rfl
  have hnewline : asBytes "\n" = [10] := by decide
  rw [render, List.flatMap_cons, hline, asBytes_append, hnewline]
  simp only [List.append_assoc, List.cons_append, List.nil_append, render]

theorem head?_render_cons (entry : Int64 × Bytes) (shown : List (Int64 × Bytes)) (more : Bytes) :
    (render (entry :: shown) ++ more).head? = some 77 := by
  have hmark : asBytes "MSG " = [77, 83, 71, 32] := by decide
  rw [render, List.flatMap_cons]
  simp only [asBytes_append, hmark, List.append_assoc]
  rfl

theorem isDigit_header {entry : Int64 × Bytes} {char : Char}
    (hchar : char ∈ (toString entry.2.length).toList) : char.isDigit = true := by
  rw [toList_toString_nat] at hchar
  exact Nat.isDigit_of_mem_toDigits (by decide) (by decide) hchar

theorem newline_notMem_header (entry : Int64 × Bytes) : '\n' ∉ header entry := by
  intro hmem
  rw [header_eq] at hmem
  simp only [List.mem_append, List.mem_cons] at hmem
  obtain (hmark | hoffset | hspace | hlength) | hend := hmem
  · exact absurd hmark (by decide)
  · obtain hdigit | hminus := mem_showI64 hoffset
    · exact absurd hdigit (by decide)
    · exact absurd hminus (by decide)
  · exact absurd hspace (by decide)
  · exact absurd (isDigit_header hlength) (by decide)
  · exact absurd hend (by decide)

theorem toString_inj {first second : Nat}
    (hshow : (toString first).toList = (toString second).toList) : first = second := by
  have hparse := parseDigits_toDigits first
  rw [← toList_toString_nat, hshow, toList_toString_nat, parseDigits_toDigits] at hparse
  exact (Option.some.inj hparse).symm

theorem header_inj {entry other : Int64 × Bytes} (hsame : header entry = header other) :
    entry.1 = other.1 ∧ entry.2.length = other.2.length := by
  have hspace : ∀ entry : Int64 × Bytes, ' ' ∉ (toString entry.2.length).toList :=
    fun entry hmem => absurd (isDigit_header hmem) (by decide)
  obtain ⟨hoffset, hlength⟩ := append_separator_inj (hspace entry) (hspace other)
    (List.append_cancel_left (List.append_cancel_right hsame))
  exact ⟨showI64_inj (String.toList_inj.mp hoffset), toString_inj hlength⟩

theorem separator_append_inj {α : Type} {separator : α} {front front' back back' : List α}
    (hfront : separator ∉ front) (hfront' : separator ∉ front')
    (hsame : front ++ separator :: back = front' ++ separator :: back') :
    front = front' ∧ back = back' := by
  have hreversed : back.reverse ++ separator :: front.reverse
      = back'.reverse ++ separator :: front'.reverse := by
    simpa using congrArg List.reverse hsame
  obtain ⟨hback, hfronts⟩ := append_separator_inj (by simpa using hfront) (by simpa using hfront')
    hreversed
  exact ⟨List.reverse_injective hfronts, List.reverse_injective hback⟩

/-- **A reply has one reading.** The length in front of a message says where it ends, whatever is in
it. -/
theorem render_inj {shown others : List (Int64 × Bytes)}
    (hsame : render shown ++ asBytes "END\r\n" = render others ++ asBytes "END\r\n") :
    shown = others := by
  have hend : ∀ entry shown, asBytes "END\r\n" ≠ render (entry :: shown) ++ asBytes "END\r\n" := by
    intro entry shown hreply
    have hfirst := congrArg List.head? hreply
    rw [head?_render_cons] at hfirst
    exact absurd hfirst (by decide)
  induction shown generalizing others with
  | nil =>
      cases others with
      | nil => rfl
      | cons other others => exact absurd hsame (hend other others)
  | cons entry shown ih =>
      cases others with
      | nil => exact absurd hsame.symm (hend entry shown)
      | cons other others =>
          have hnewline : ∀ entry : Int64 × Bytes, (10 : UInt8) ∉ asBytes (String.ofList (header entry)) :=
            fun entry => notMem_asBytes (by decide) (newline_notMem_header entry)
          rw [render_cons, render_cons] at hsame
          obtain ⟨hheader, hrest⟩ := separator_append_inj (hnewline entry) (hnewline other) hsame
          obtain ⟨hoffset, hlength⟩ := header_inj (String.ofList_inj.mp (asBytes_inj hheader))
          obtain ⟨hmessage, hlater⟩ := List.append_inj hrest hlength
          rw [Prod.ext hoffset hmessage, ih (List.append_cancel_left hlater)]

section Executions

variable {handed : Nat} {executions : List (Execution streamlog)} {world : World streamlog}

/-! ### No offset without its message -/

def isStore (op : Op) : Bool :=
  match op.kind with
  | .set _ _ => true
  | _ => false

/-- Every message of the topic whose offset has been taken has been stored. -/
def Complete (topic : List Char) (ops : List Op) : Prop :=
  ∀ op ∈ ops, op.kind = .incr (counterKey topic) 1 →
    ∃ other ∈ ops, other.client = op.client ∧ other.seq = op.seq + 1 ∧ isStore other = true

/-- The op that took an offset. -/
theorem exists_take {topic : List Char} {ops : List Op} {count : Nat} (hcount : count < taken topic ops) :
    ∃ (place : Nat) (op : Op), ops[place]? = some op ∧ op.kind = .incr (counterKey topic) 1
      ∧ taken topic (ops.take place) = count := by
  induction ops using List.reverseRecOn with
  | nil => exact absurd hcount (Nat.not_lt_zero _)
  | append_singleton ops op ih =>
      rw [taken_concat] at hcount
      by_cases hearlier : count < taken topic ops
      · obtain ⟨place, other, hother, hkind, htaken⟩ := ih hearlier
        obtain ⟨hlength, -⟩ := List.getElem?_eq_some_iff.mp hother
        refine ⟨place, other, ?_, hkind, ?_⟩
        · rwa [List.getElem?_append_left hlength]
        · rwa [List.take_append_of_le_length hlength.le]
      · split at hcount
        · rename_i hkind
          refine ⟨ops.length, op, List.getElem?_concat_length, hkind, ?_⟩
          rw [List.take_left]
          omega
        · omega

theorem seq_storeOp (client : UInt32) (seq : UInt64) (parts : List (List Char)) (offset : Int64) :
    (storeOp client seq parts offset).seq = (takeOp client seq parts).seq + 1 := by
  rw [storeOp, takeOp, UInt64.add_assoc]
  rfl

/-- Then every offset up to the length has a message. -/
theorem stored_of_complete (hcontinues : Continues handed executions world)
    (hfew : executions.length < 9223372036854775807) {topic : List Char} {read count : Nat}
    (hcomplete : Complete topic ((executions.map Execution.op).take read))
    (hcount : count < taken topic ((executions.map Execution.op).take read)) :
    ∃ message, (after ((executions.map Execution.op).take read)).map[
      messageKey topic (Int64.ofNat (count + 1))]? = some message := by
  have hissues : ∀ op ∈ (executions.map Execution.op).take read, Issues op := by
    intro op hop
    rw [← List.map_take] at hop
    exact issues hcontinues hop
  obtain ⟨place, op, hop, hkind, htaken⟩ := exists_take hcount
  obtain ⟨other, hother, hclient, hseq, hstore⟩ := hcomplete op (List.mem_of_getElem? hop) hkind
  obtain ⟨second, hsecond⟩ := List.mem_iff_getElem?.mp hother
  obtain ⟨hplace, -⟩ := List.getElem?_eq_some_iff.mp hop
  obtain ⟨hplace', -⟩ := List.getElem?_eq_some_iff.mp hsecond
  rw [List.length_take] at hplace hplace'
  have hstored := hsecond
  rw [List.getElem?_take_of_lt (by omega), List.getElem?_map] at hop hsecond
  obtain ⟨execution, hexecution, rfl⟩ := Option.map_eq_some_iff.mp hop
  obtain ⟨storing, hstoring, rfl⟩ := Option.map_eq_some_iff.mp hsecond
  obtain ⟨name, offset, message, hset⟩ : ∃ name offset message,
      storing.op.kind = .set (messageKey name offset) message := by
    cases hissues _ hother with
    | reads hread =>
        rw [Op.isWrite] at hread
        rw [isStore] at hstore
        cases hkind : storing.op.kind <;> simp_all
    | takes name htakes =>
        rw [isStore, htakes] at hstore
        cases hstore
    | stores name offset message hset => exact ⟨name, offset, message, hset⟩
  obtain ⟨parts, first, -, -, rfl, -, hstoreOp, htakes, hoffset⟩ :=
    takes_of_stores hcontinues hstoring hset
  -- one request takes the offset and stores the message
  obtain rfl : first = place := by
    have htake : execution.key = ((takeOp storing.serving.client storing.serving.conn parts).client,
        (takeOp storing.serving.client storing.serving.conn parts).seq) := by
      rw [hstoreOp] at hclient hseq
      have hnext := seq_storeOp storing.serving.client storing.serving.conn parts offset
      exact Prod.ext hclient.symm ((UInt64.add_left_inj 1).mp (hseq.symm.trans hnext))
    have hlength : place < (executions.map Execution.key).length := by
      rw [List.length_map]
      exact (List.getElem?_eq_some_iff.mp hexecution).1
    refine ((List.getElem?_inj hlength hcontinues.serves.executes.keys).mp ?_).symm
    rw [List.getElem?_map, List.getElem?_map, hexecution, htakes]
    exact congrArg some htake
  obtain rfl := Option.some.inj (hexecution.symm.trans htakes)
  obtain rfl : topicOf parts = topic := counterKey_inj (OpKind.incr.inj hkind).1
  rw [List.take_take, Nat.min_eq_left (by omega)] at htaken
  rw [htaken] at hoffset
  refine ⟨message, @getElem?_messageKey _ hissues _ _ _ second ⟨storing.op, hstored, ?_⟩ ?_⟩
  · rw [hset, hoffset]
  · intro later op value hlater hkind
    obtain ⟨hless, -⟩ := List.getElem?_eq_some_iff.mp hlater
    rw [List.length_take] at hless
    rw [List.getElem?_take_of_lt (by omega), List.getElem?_map] at hlater
    obtain ⟨again, hagain, rfl⟩ := Option.map_eq_some_iff.mp hlater
    rw [← hoffset] at hkind
    exact stores_unique hcontinues hfew hagain hstoring hkind hset

end Executions

/-! ### What a consumer receives -/

/-- So many offsets, in order. -/
def offsetsFrom (first : Int64) (count : Nat) : List Int64 :=
  (List.range count).map fun i => first + Int64.ofNat i

theorem length_offsetsFrom (first : Int64) (count : Nat) : (offsetsFrom first count).length = count := by
  rw [offsetsFrom, List.length_map, List.length_range]

theorem offsetsFrom_add (first : Int64) (count more : Nat) :
    offsetsFrom first (count + more)
      = offsetsFrom first count ++ offsetsFrom (first + Int64.ofNat count) more := by
  rw [offsetsFrom, List.range_add, List.map_append, List.map_map]
  refine congrArg _ (List.map_congr_left fun i _ => ?_)
  rw [Function.comp_apply, Int64.ofNat_add, Int64.add_assoc]

theorem offsetsFrom_succ (first : Int64) (count : Nat) :
    offsetsFrom first (count + 1) = first :: offsetsFrom (first + 1) count := by
  rw [Nat.add_comm, offsetsFrom_add]
  exact congrArg (· :: _) (Int64.add_zero first)

/-- Answers that all have a message are shown one by one. -/
theorem offsets_shownFrom {answers : List (Op × Option Output)}
    (hanswers : ∀ answer ∈ answers, ∃ message, answer.2 = some (.bytes (some message)))
    (offset : Int64) : (shownFrom offset answers).map Prod.fst = offsetsFrom offset answers.length := by
  induction answers generalizing offset with
  | nil => rfl
  | cons answer answers ih =>
      obtain ⟨message, hmessage⟩ := hanswers answer List.mem_cons_self
      rw [shownFrom, hmessage, List.length_cons, offsetsFrom_succ,
        ← ih (fun other hother => hanswers other (List.mem_cons_of_mem _ hother))]
      rfl

/-- The offset a consumer asks for next: one more than the largest it has received. -/
def nextOffset (received : List (Int64 × Bytes)) : Int64 :=
  received.foldl (fun largest entry => max largest entry.1) 0 + 1

theorem nextOffset_eq {received : List (Int64 × Bytes)} {count : Nat}
    (hcount : count < 9223372036854775807) (hreceived : received.map Prod.fst = offsetsFrom 1 count) :
    nextOffset received = 1 + Int64.ofNat count := by
  have hlargest : ∀ count : Nat, count < 9223372036854775807 →
      (offsetsFrom 1 count).foldl max 0 = Int64.ofNat count := by
    intro count hcount
    induction count with
    | zero => rfl
    | succ count ih =>
        rw [offsetsFrom_add, List.foldl_append, ih (by omega)]
        change (if Int64.ofNat count ≤ 1 + Int64.ofNat count + Int64.ofNat 0
          then 1 + Int64.ofNat count + Int64.ofNat 0 else Int64.ofNat count) = _
        have hnext : 1 + Int64.ofNat count + Int64.ofNat 0 = Int64.ofNat (count + 1) := by
          rw [Int64.ofNat_add, Int64.add_comm (Int64.ofNat count)]
          exact Int64.add_zero _
        rw [hnext, if_pos]
        rw [Int64.le_iff_toInt_le, Int64.toInt_ofNat_of_lt (by omega),
          Int64.toInt_ofNat_of_lt (by omega)]
        omega
  have hfold : received.foldl (fun largest entry => max largest entry.1) 0
      = (received.map Prod.fst).foldl max 0 := List.foldl_map.symm
  rw [nextOffset, hfold, hreceived, hlargest count hcount, Int64.add_comm]

/-- A consumer: each of its subscriptions asks for the offset behind the largest it has received, and it
receives what the reply has. The replies may be from any connections. -/
inductive Consumes (topic : List Char) (replies : List (Served streamlog)) :
    List (Served streamlog) → List (Int64 × Bytes) → Prop
  | fresh : Consumes topic replies [] []
  | next {subs : List (Served streamlog)} {received : List (Int64 × Bytes)} {sub : Served streamlog}
      {parts : List (List Char)} {shown : List (Int64 × Bytes)}
      (hconsumes : Consumes topic replies subs received) (hreply : sub ∈ replies)
      (hrequest : sub.request = some parts) (hsub : isSub parts = true)
      (htopic : topicOf parts = topic) (hstart : start parts = nextOffset received)
      (houtput : sub.output = render shown ++ asBytes "END\r\n") :
      Consumes topic replies (subs ++ [sub]) (received ++ shown)

/-- The execution is the first of a request to subscribe to the topic. -/
def subscribes (topic : List Char) (execution : Execution streamlog) : Bool :=
  (execution.serving.request.any fun parts => isSub parts && topicOf parts = topic)
    && execution.answers.isEmpty

/-- No length of the topic is read while one of its messages has an offset only. -/
def ReadsComplete (topic : List Char) (executions : List (Execution streamlog)) : Prop :=
  ∀ (read : Nat) (execution : Execution streamlog), executions[read]? = some execution →
    subscribes topic execution = true → Complete topic ((executions.map Execution.op).take read)

section Executions

variable {handed : Nat} {executions : List (Execution streamlog)} {world : World streamlog}

/-- Where a subscription has read the length of its topic. -/
def ReadsAt (executions : List (Execution streamlog)) (sub : Served streamlog)
    (parts : List (List Char)) (read : Nat) : Prop :=
  executions[read]? = some
    { serving := sub.serving, answers := [], op := lengthOp sub.client sub.conn parts }

/-- Such a subscription shows every offset from its start to the length. -/
theorem shown_of_complete (hcontinues : Continues handed executions world)
    (hfew : executions.length < 9223372036854775807) {sub : Served streamlog}
    (hreply : sub ∈ world.replies) {parts : List (List Char)} (hrequest : sub.request = some parts)
    (hsub : isSub parts = true) (hcomplete : ReadsComplete (topicOf parts) executions)
    {shown : List (Int64 × Bytes)} (houtput : sub.output = render shown ++ asBytes "END\r\n") :
    ∃ read out rest, ReadsAt executions sub parts read
      ∧ sub.answers = (lengthOp sub.client sub.conn parts, some out) :: rest
      ∧ topicLength (some out)
        = Int64.ofNat (taken (topicOf parts) ((executions.map Execution.op).take read))
      ∧ shown.map Prod.fst = offsetsFrom (start parts)
        ((taken (topicOf parts) ((executions.map Execution.op).take read) : Int)
          - (start parts).toInt + 1).toNat
      ∧ ∀ entry ∈ shown, (after (executions.map Execution.op)).map[
          messageKey (topicOf parts) entry.1]? = some entry.2 := by
  obtain ⟨read, out, rest, hread, hanswers, hlength, hcount, hrendered, hplaces⟩ :=
    reads_of_replied hcontinues hfew hreply hrequest hsub
  obtain rfl := render_inj (hrendered.symm.trans houtput)
  have hread' : subscribes (topicOf parts)
      { serving := sub.serving, answers := [], op := lengthOp sub.client sub.conn parts } = true := by
    have hasked : (isSub parts && decide (topicOf parts = topicOf parts)) = true := by
      rw [hsub, decide_eq_true rfl]
      rfl
    rw [subscribes, Served.serving, hrequest]
    exact Bool.and_eq_true_iff.mpr ⟨hasked, rfl⟩
  have htaken := @taken_le executions (topicOf parts) read
  have hstart := one_le_start parts
  have hall : ∀ (i : Nat) (answer : Op × Option Output), rest[i]? = some answer →
      ∃ message, answer.2 = some (.bytes (some message))
        ∧ (after (executions.map Execution.op)).map[
          messageKey (topicOf parts) (start parts + Int64.ofNat i)]? = some message := by
    intro i answer hanswer
    obtain ⟨behind, hle, hbehind, hout⟩ := hplaces i answer hanswer
    have hi := (List.getElem?_eq_some_iff.mp hanswer).1
    have hnumber : start parts + Int64.ofNat i
        = Int64.ofNat ((start parts).toInt.toNat + i - 1 + 1) := by
      rw [← Int64.toInt_inj, toInt_add_ofNat (by omega) (by omega), Int64.toInt_ofNat_of_lt (by omega)]
      omega
    obtain ⟨message, hmessage⟩ := stored_of_complete hcontinues hfew (hcomplete read _ hread hread')
      (show (start parts).toInt.toNat + i - 1 < _ by omega)
    rw [← hnumber] at hmessage
    have hlater := message_stays hcontinues hfew hle hmessage
    have hlast := message_stays hcontinues hfew hbehind hlater
    rw [List.take_of_length_le (by rw [List.length_map])] at hlast
    exact ⟨message, by rw [hout, hlater], hlast⟩
  refine ⟨read, out, rest, hread, hanswers, hlength, ?_, ?_⟩
  · rw [← hcount]
    refine offsets_shownFrom (fun answer hanswer => ?_) _
    obtain ⟨i, hi⟩ := List.mem_iff_getElem?.mp hanswer
    obtain ⟨message, hmessage, -⟩ := hall i answer hi
    exact ⟨message, hmessage⟩
  · intro entry hentry
    obtain ⟨i, op, hop, hoffset⟩ := mem_shownFrom.mp hentry
    obtain ⟨message, hmessage, hstored⟩ := hall i _ hop
    obtain rfl : entry.2 = message := by
      injection hmessage with hmessage
      injection hmessage with hmessage
      exact Option.some.inj hmessage
    rw [hoffset]
    exact hstored

end Executions

section Executions

variable {handed : Nat} {executions : List (Execution streamlog)} {world : World streamlog}

/-- What a consumer has received up to some offset. -/
structure Received (topic : List Char) (executions : List (Execution streamlog))
    (subs : List (Served streamlog)) (received : List (Int64 × Bytes)) (count : Nat) : Prop where
  few : count ≤ executions.length
  offsets : received.map Prod.fst = offsetsFrom 1 count
  stored : ∀ entry ∈ received, (after (executions.map Execution.op)).map[
    messageKey topic entry.1]? = some entry.2
  lengths : ∀ sub ∈ subs, ∃ parts read, ReadsAt executions sub parts read
    ∧ taken topic ((executions.map Execution.op).take read) ≤ count

/-- **The consumer's step.** One more subscription goes on where the others ended. -/
theorem Received.next (hcontinues : Continues handed executions world)
    (hfew : executions.length < 9223372036854775807) {subs : List (Served streamlog)}
    {received : List (Int64 × Bytes)} {count : Nat} {sub : Served streamlog}
    {parts : List (List Char)}
    (hreceived : Received (topicOf parts) executions subs received count)
    (hreply : sub ∈ world.replies) (hrequest : sub.request = some parts)
    (hsub : isSub parts = true) (hstart : start parts = nextOffset received)
    (hcomplete : ReadsComplete (topicOf parts) executions) {shown : List (Int64 × Bytes)}
    (houtput : sub.output = render shown ++ asBytes "END\r\n") :
    ∃ more, Received (topicOf parts) executions (subs ++ [sub]) (received ++ shown) more := by
  obtain ⟨read, out, rest, hread, -, -, hshown, hstored⟩ :=
    shown_of_complete hcontinues hfew hreply hrequest hsub hcomplete houtput
  have htaken := @taken_le executions (topicOf parts) read
  have hfirst := hreceived.few
  rw [nextOffset_eq (by omega) hreceived.offsets] at hstart
  have hnumber : (start parts).toInt = count + 1 := by
    have hone : (0 : Int) < (1 : Int64).toInt := by decide
    have hbelow : (1 : Int64).toInt + count < 9223372036854775808 := by
      change (1 : Int) + count < _
      omega
    rw [hstart, toInt_add_ofNat hone hbelow]
    exact Int.add_comm 1 (count : Int)
  have hcount : ((taken (topicOf parts) ((executions.map Execution.op).take read) : Int)
      - (start parts).toInt + 1).toNat
      = taken (topicOf parts) ((executions.map Execution.op).take read) - count := by
    rw [hnumber]
    omega
  rw [hcount, hstart] at hshown
  refine ⟨count + (taken (topicOf parts) ((executions.map Execution.op).take read) - count), by omega,
    ?_, fun entry hentry => ?_, fun other hother => ?_⟩
  · rw [List.map_append, hreceived.offsets, hshown, offsetsFrom_add]
  · exact (List.mem_append.mp hentry).elim (hreceived.stored entry) (hstored entry)
  · rcases List.mem_append.mp hother with hold | hnew
    · obtain ⟨parts, place, hplace, hle⟩ := hreceived.lengths other hold
      exact ⟨parts, place, hplace, by omega⟩
    · obtain rfl := List.mem_singleton.mp hnew
      exact ⟨parts, read, hread, by omega⟩

theorem Consumes.shows {topic : List Char} {replies subs : List (Served streamlog)}
    {received : List (Int64 × Bytes)} (hconsumes : Consumes topic replies subs received)
    {sub : Served streamlog} (hsub : sub ∈ subs) :
    sub ∈ replies ∧ ∃ parts shown, sub.request = some parts ∧ isSub parts = true
      ∧ topicOf parts = topic ∧ sub.output = render shown ++ asBytes "END\r\n" := by
  induction hconsumes with
  | fresh => cases hsub
  | next hconsumes hreply hrequest hsubscribes htopic hstart houtput ih =>
      rcases List.mem_append.mp hsub with hold | hnew
      · exact ih hold
      · obtain rfl := List.mem_singleton.mp hnew
        exact ⟨hreply, _, _, hrequest, hsubscribes, htopic, houtput⟩

/-- **What a consumer receives**, by induction on its subscriptions. -/
theorem Consumes.received (hcontinues : Continues handed executions world)
    (hfew : executions.length < 9223372036854775807) {topic : List Char}
    (hcomplete : ReadsComplete topic executions) {subs : List (Served streamlog)}
    {received : List (Int64 × Bytes)} (hconsumes : Consumes topic world.replies subs received) :
    ∃ count, Received topic executions subs received count := by
  induction hconsumes with
  | fresh => exact ⟨0, Nat.zero_le _, rfl, fun _ hentry => absurd hentry List.not_mem_nil,
      fun _ hsub => absurd hsub List.not_mem_nil⟩
  | next hconsumes hreply hrequest hsub htopic hstart houtput ih =>
      obtain ⟨count, hreceived⟩ := ih
      subst htopic
      exact hreceived.next hcontinues hfew hreply hrequest hsub hstart hcomplete houtput

theorem Takes.mono {first : Nat} {serving : Serving streamlog} {parts : List (List Char)}
    {offset : Int64} (htakes : Takes executions first serving parts offset)
    {longer more : List (Execution streamlog)} (hmore : longer = executions ++ more) :
    Takes longer first serving parts offset := by
  obtain ⟨htaken, hoffset⟩ := htakes
  have hfirst := (List.getElem?_eq_some_iff.mp htaken).1
  refine ⟨?_, ?_⟩
  · rwa [hmore, List.getElem?_append_left hfirst]
  · rw [hoffset, hmore, List.map_append,
      List.take_append_of_le_length (by rw [List.length_map]; omega)]

/-- It has every acknowledged message whose offset was taken before one of its subscriptions read the
length. -/
theorem Received.acknowledged (hcontinues : Continues handed executions world)
    (hfew : executions.length < 9223372036854775807) {subs : List (Served streamlog)}
    {received : List (Int64 × Bytes)} {count : Nat} {parts : List (List Char)}
    (hreceived : Received (topicOf parts) executions subs received count)
    {ack : Served streamlog} (hreply : ack ∈ world.replies) {offset : Int64}
    (hack : Acknowledged ack parts offset) {first : Nat}
    (htakes : Takes executions first ack.serving parts offset) {sub : Served streamlog}
    (hsub : sub ∈ subs) (hlater : ∀ parts read, ReadsAt executions sub parts read → first < read) :
    (offset, messageOf parts) ∈ received := by
  obtain ⟨asked, read, hread, hcount⟩ := hreceived.lengths sub hsub
  have hop : (executions.map Execution.op)[first]?
      = some (takeOp ack.client ack.conn parts) := by
    rw [List.getElem?_map, htakes.1]
    rfl
  have hless := @taken_take_lt _ (topicOf parts) _ _ _ hop rfl (hlater asked read hread)
  have hmem : offset ∈ received.map Prod.fst := by
    rw [hreceived.offsets, htakes.2, offsetsFrom, List.mem_map]
    refine ⟨_, List.mem_range.mpr (Nat.lt_of_lt_of_le hless hcount), ?_⟩
    rw [Int64.ofNat_add, Int64.add_comm]
    rfl
  obtain ⟨⟨place, message⟩, hentry, rfl⟩ := List.mem_map.mp hmem
  have hstored := hreceived.stored _ hentry
  have hkept := (kept_of_acknowledged hcontinues hfew hreply hack).message
  obtain rfl : message = messageOf parts := Option.some.inj (hstored.symm.trans hkept)
  exact hentry

end Executions

section Runs

variable {interval : UInt64} {events : List (WorldEvent streamlog)}

/-- When the first op of a subscription to the topic is executed, no request that publishes to it stands
between its two ops, and none has been cut off there. -/
def Settled (topic : List Char) (world : World streamlog) (event : WorldEvent streamlog) : Prop :=
  ∀ execution ∈ world.executes event, subscribes topic execution = true →
    Complete topic (world.history.appended.map Prod.snd)

instance (topic : List Char) (ops : List Op) : Decidable (Complete topic ops) :=
  inferInstanceAs (Decidable (∀ op ∈ ops, op.kind = .incr (counterKey topic) 1 →
    ∃ other ∈ ops, other.client = op.client ∧ other.seq = op.seq + 1 ∧ isStore other = true))

instance (topic : List Char) (world : World streamlog) (event : WorldEvent streamlog) :
    Decidable (Settled topic world event) :=
  inferInstanceAs (Decidable (∀ execution ∈ world.executes event, subscribes topic execution = true →
    Complete topic (world.history.appended.map Prod.snd)))

theorem readsComplete_run {topic : List Char} (hbounds : InBounds interval events)
    (hsettled : Run.Guarded World.step (Settled topic) (World.start interval) events) :
    ReadsComplete topic (executed interval events) := by
  induction events using List.reverseRecOn with
  | nil => exact fun _ _ hexecution => absurd hexecution (by rw [executed, Run.trace]; simp)
  | append_singleton events event ih =>
      obtain ⟨hbefore, hevent, -⟩ := (Run.guarded_append _).mp hsettled
      have hearlier := ih hbounds.front hbefore
      have happended := hbounds.front.continues.appended
      intro read execution hexecution hsub
      rw [executed_concat] at hexecution ⊢
      rw [List.map_append]
      by_cases hold : read < (executed interval events).length
      · rw [List.getElem?_append_left hold] at hexecution
        rw [List.take_append_of_le_length (by rw [List.length_map]; omega)]
        exact hearlier read execution hexecution hsub
      · rw [List.getElem?_append_right (by omega)] at hexecution
        have hone := length_executes_le (served interval events) event
        have hread := (List.getElem?_eq_some_iff.mp hexecution).1
        have hlast : read = ((executed interval events).map Execution.op).length := by
          rw [List.length_map]
          omega
        rw [hlast, List.take_left, ← happended]
        exact hevent execution (List.mem_of_getElem? hexecution) hsub

/-- **A consumer misses nothing.** However connections publish, however the process dies between durable
steps and restarts, as long as no length of the topic is read while a request to publish to it stands
between its two ops: every subscription of the consumer shows every offset from the one it asks for to
the length it reads, the consumer receives the offsets from 1 on in order and each once, and among them
every message that was acknowledged before one of its subscriptions began. -/
theorem consumer_misses_nothing {topic : List Char} (hbounds : InBounds interval events)
    (hsettled : Run.Guarded World.step (Settled topic) (World.start interval) events)
    {subs : List (Served streamlog)} {received : List (Int64 × Bytes)}
    (hconsumes : Consumes topic (served interval events).replies subs received) :
    (∀ sub ∈ subs, ∃ parts out rest shown, sub.request = some parts
        ∧ sub.answers = (lengthOp sub.client sub.conn parts, some out) :: rest
        ∧ sub.output = render shown ++ asBytes "END\r\n"
        ∧ shown.map Prod.fst = offsetsFrom (start parts)
          ((topicLength (some out)).toInt - (start parts).toInt + 1).toNat)
      ∧ received.map Prod.fst = offsetsFrom 1 received.length
      ∧ ∀ front back, events = front ++ back → ∀ ack ∈ (served interval front).replies,
        ∀ parts offset, Acknowledged ack parts offset → topicOf parts = topic →
          (∃ sub ∈ subs, ∀ execution ∈ executed interval front, execution.serving ≠ sub.serving) →
            (offset, messageOf parts) ∈ received := by
  have hcomplete := readsComplete_run hbounds hsettled
  obtain ⟨count, hreceived⟩ := hconsumes.received hbounds.continues hbounds.few hcomplete
  refine ⟨fun sub hsub => ?_, ?_, ?_⟩
  · obtain ⟨hreply, parts, shown, hrequest, hsubscribes, rfl, houtput⟩ := hconsumes.shows hsub
    obtain ⟨read, out, rest, -, hanswers, hlength, hshown, -⟩ := shown_of_complete hbounds.continues
      hbounds.few hreply hrequest hsubscribes hcomplete houtput
    have htaken := @taken_le (executed interval events) (topicOf parts) read
    have hfew := hbounds.few
    refine ⟨parts, out, rest, shown, hrequest, hanswers, houtput, ?_⟩
    rw [hshown, hlength, Int64.toInt_ofNat_of_lt (by omega)]
  · have hlength := congrArg List.length hreceived.offsets
    rw [List.length_map, length_offsetsFrom] at hlength
    rw [hlength]
    exact hreceived.offsets
  · rintro front back rfl ack hack parts offset hacknowledged rfl ⟨sub, hsub, hlater⟩
    obtain ⟨first, -, htakes, -⟩ := hacknowledged.stored hbounds.front.continues hack
    have hsplit : executed interval (front ++ back) = executed interval front
        ++ Run.trace World.step World.executes (served interval front) back := Run.trace_append back
    have hplace := (List.getElem?_eq_some_iff.mp htakes.1).1
    have hreply : ack ∈ (served interval (front ++ back)).replies := by
      rw [served, Run.run_append]
      exact (World.replies_prefix_run back).subset hack
    refine hreceived.acknowledged hbounds.continues hbounds.few hreply hacknowledged
      (htakes.mono hsplit) hsub fun asked read hread => ?_
    by_contra hnot
    rw [ReadsAt, hsplit, List.getElem?_append_left (by omega)] at hread
    exact hlater _ (List.mem_of_getElem? hread) rfl

end Runs

/-! ### Runs of consumers -/

/-- What a reply shows of itself: whose it is, what was asked, and the bytes. -/
def shownWith (world : World streamlog) : List (UInt32 × UInt64 × Option (List (List Char)) × Bytes) :=
  world.replies.map fun reply => (reply.client, reply.conn, reply.request, reply.output)

theorem exists_reply {world : World streamlog} {client : UInt32} {conn : UInt64}
    {parts : List (List Char)} {output : Bytes}
    (hmem : (client, conn, some parts, output) ∈ shownWith world) :
    ∃ reply ∈ world.replies, reply.client = client ∧ reply.conn = conn ∧ reply.request = some parts
      ∧ reply.output = output := by
  obtain ⟨reply, hreply, hfields⟩ := List.mem_map.mp hmem
  obtain ⟨hclient, hrest⟩ := Prod.mk.inj hfields
  obtain ⟨hconn, hrest⟩ := Prod.mk.inj hrest
  obtain ⟨hrequest, houtput⟩ := Prod.mk.inj hrest
  exact ⟨reply, hreply, hclient, hconn, hrequest, houtput⟩

/-- The requests that have been executed so far. -/
def servedBy (executions : List (Execution streamlog)) : List (UInt32 × UInt64) :=
  executions.map fun execution => (execution.serving.client, execution.serving.conn)

theorem not_begun {executions : List (Execution streamlog)} {sub : Served streamlog}
    {client : UInt32} {conn : UInt64} (hclient : sub.client = client) (hconn : sub.conn = conn)
    (hnew : (client, conn) ∉ servedBy executions) :
    ∀ execution ∈ executions, execution.serving ≠ sub.serving := by
  intro execution hexecution hserving
  refine hnew (List.mem_map.mpr ⟨execution, hexecution, ?_⟩)
  rw [hserving, ← hclient, ← hconn]
  rfl

/-- Two connections publish, one of them reads both messages, the process dies, and the consumer goes on
from the next process. -/
def consumeAndRestart : List (WorldEvent streamlog) :=
  List.flatten [[.accept 0 1, .accept 1 2, .request 0 (pub 'x'), .request 1 (pub 'y')],
    call 0, call 1, call 1, [.reply 1], call 0, [.reply 0, .request 1 (sub '1')],
    call 1, call 1, call 1, [.reply 1, .crash, .restart 2, .accept 2 3, .request 2 (pub 'z')],
    call 2, call 2, [.reply 2, .request 2 (sub '3')], call 2, call 2, [.reply 2]]

theorem consumer_misses_nothing_consumeAndRestart :
    ∃ subs received, Consumes ['a'] (served 2 consumeAndRestart).replies subs received
      ∧ received.map Prod.fst = offsetsFrom 1 received.length
      ∧ (3, messageOf (pub 'z')) ∈ received := by
  have hbounds : InBounds 2 consumeAndRestart :=
    ⟨by decide +kernel, by decide +kernel, by decide +kernel⟩
  have hsettled : Run.Guarded World.step (Settled ['a']) (World.start 2) consumeAndRestart := by
    decide +kernel
  obtain ⟨earlier, hearlier, -, -, hasked, hshown⟩ := @exists_reply (served 2 consumeAndRestart) 2 2
    (sub '1') (render [(1, asBytes "x"), (2, asBytes "y")] ++ asBytes "END\r\n") (by decide +kernel)
  obtain ⟨later, hlater, hclient, hconn, hasked', hshown'⟩ := @exists_reply
    (served 2 consumeAndRestart) 3 2 (sub '3') (render [(3, asBytes "z")] ++ asBytes "END\r\n")
    (by decide +kernel)
  have hconsumes : Consumes ['a'] (served 2 consumeAndRestart).replies ([] ++ [earlier] ++ [later])
      ([] ++ [(1, asBytes "x"), (2, asBytes "y")] ++ [(3, asBytes "z")]) :=
    .next (.next .fresh hearlier hasked (by decide) rfl (by decide +kernel) hshown) hlater hasked'
      (by decide) rfl (by decide +kernel) hshown'
  obtain ⟨ack, hack, -, -, hrequest, houtput⟩ := @exists_reply
    (served 2 (consumeAndRestart.take 40)) 3 0 (pub 'z') (asBytes ("OFFSET " ++ showI64 3 ++ "\r\n"))
    (by decide +kernel)
  obtain ⟨-, hoffsets, hacknowledged⟩ := consumer_misses_nothing hbounds hsettled hconsumes
  refine ⟨_, _, hconsumes, hoffsets, hacknowledged (consumeAndRestart.take 40)
    (consumeAndRestart.drop 40) (List.take_append_drop _ _).symm ack hack (pub 'z') 3
    ⟨hrequest, by decide +kernel, houtput⟩ rfl ⟨later, by simp, not_begun hclient hconn (by decide +kernel)⟩⟩

/-- The topic is read while the first offset is taken and nothing is stored there yet. The consumer goes
on behind the second message. -/
def consumeTooEarly : List (WorldEvent streamlog) :=
  List.flatten [[.accept 0 1, .accept 1 2, .request 0 (pub 'x'), .request 1 (pub 'y')],
    call 0, call 1, call 1, [.reply 1, .request 1 (sub '1')], call 1, call 1, call 1, [.reply 1],
    call 0, [.reply 0, .request 1 (sub '3')], call 1, [.reply 1]]

/-- **A consumer misses a message.** It is acknowledged before the consumer asks again, and the consumer
never receives it. -/
theorem consumer_misses_message :
    InBounds 2 consumeTooEarly
      ∧ ∃ subs received, Consumes ['a'] (served 2 consumeTooEarly).replies subs received
        ∧ received.map Prod.fst ≠ offsetsFrom 1 received.length
        ∧ (∃ ack ∈ (served 2 (consumeTooEarly.take 29)).replies, Acknowledged ack (pub 'x') 1)
        ∧ (∃ sub ∈ subs, ∀ execution ∈ executed 2 (consumeTooEarly.take 29),
          execution.serving ≠ sub.serving)
        ∧ (1, messageOf (pub 'x')) ∉ received := by
  refine ⟨⟨by decide +kernel, by decide +kernel, by decide +kernel⟩, ?_⟩
  obtain ⟨earlier, hearlier, -, -, hasked, hshown⟩ := @exists_reply (served 2 consumeTooEarly) 2 2
    (sub '1') (render [(2, asBytes "y")] ++ asBytes "END\r\n") (by decide +kernel)
  obtain ⟨later, hlater, hclient, hconn, hasked', hshown'⟩ := @exists_reply
    (served 2 consumeTooEarly) 2 5 (sub '3') (render [] ++ asBytes "END\r\n") (by decide +kernel)
  obtain ⟨ack, hack, -, -, hrequest, houtput⟩ := @exists_reply
    (served 2 (consumeTooEarly.take 29)) 1 0 (pub 'x') (asBytes ("OFFSET " ++ showI64 1 ++ "\r\n"))
    (by decide +kernel)
  have hconsumes : Consumes ['a'] (served 2 consumeTooEarly).replies ([] ++ [earlier] ++ [later])
      ([] ++ [(2, asBytes "y")] ++ []) :=
    .next (.next .fresh hearlier hasked (by decide) rfl (by decide +kernel) hshown) hlater hasked'
      (by decide) rfl (by decide +kernel) hshown'
  refine ⟨_, _, hconsumes, by decide +kernel, ⟨ack, hack, hrequest, by decide +kernel, houtput⟩,
    ⟨later, by simp, not_begun hclient hconn (by decide +kernel)⟩, by decide +kernel⟩

end StreamLog

end OneBarrier
