import OneBarrier.Proof.Offsets

/-!
# What a subscription shows

A `SUB` reads the length of its topic once and then every offset up to it. A message that is there when
the length is read stays there, so the reply has it; and what the reply has is what stays.
-/

namespace OneBarrier

open Wire Utf8 Text

section Explained

variable {frontend : Frontend} {initial : KvStore} {executions : List (Execution frontend)}
  {serving : Serving frontend}

/-- The execution behind an answer, and where the answers in front of it were given. -/
theorem Explained.split {place : Nat} {before later : List (Op × Option Output)} {op : Op}
    {out : Output} (hexplained : Explained initial executions serving place
      (before ++ (op, some out) :: later)) :
    ∃ earlier behind : Nat, earlier ≤ behind ∧ behind < place
      ∧ Explained initial executions serving earlier before
      ∧ executions[behind]? = some { serving, answers := before, op }
      ∧ out = ((stored initial (executions.take behind)).apply op).2 := by
  generalize hgiven : before ++ (op, some out) :: later = given at hexplained
  induction hexplained generalizing later with
  | start => simp at hgiven
  | answered last hanswers hlast hexecuted hout ih =>
      rcases List.eq_nil_or_concat later with rfl | ⟨front, final, rfl⟩
      · obtain ⟨rfl, hsame⟩ := List.append_inj' hgiven rfl
        cases hsame
        exact ⟨_, last, hlast, Nat.lt_succ_self last, hanswers, hexecuted, hout⟩
      · rw [List.concat_eq_append, ← List.cons_append, ← List.append_assoc] at hgiven
        obtain ⟨hfront, -⟩ := List.append_inj' hgiven rfl
        obtain ⟨earlier, behind, hle, hlt, hrest⟩ := ih hfront
        exact ⟨earlier, behind, hle, by omega, hrest⟩
  | unanswered other hanswers ih =>
      rcases List.eq_nil_or_concat later with rfl | ⟨front, final, rfl⟩
      · obtain ⟨-, hsame⟩ := List.append_inj' hgiven rfl
        cases hsame
      · rw [List.concat_eq_append, ← List.cons_append, ← List.append_assoc] at hgiven
        obtain ⟨hfront, -⟩ := List.append_inj' hgiven rfl
        exact ih hfront

end Explained

theorem Conv.ends_bind {α β : Type} {conv : Conv α} {next : α → Conv β}
    {answers : List (Op × Option Output)} {result : β} (hends : (conv.bind next).Ends answers result) :
    ∃ front back value, answers = front ++ back ∧ conv.Ends front value
      ∧ (next value).Ends back result := by
  induction conv generalizing answers with
  | ret value => exact ⟨[], answers, value, rfl, ⟨rfl, rfl⟩, hends⟩
  | apply op after ih =>
      obtain ⟨answer, rest, rfl, hrest⟩ := hends
      obtain ⟨front, back, value, rfl, hfront, hback⟩ := ih answer hrest
      exact ⟨(op, answer) :: front, back, value, rfl, ⟨answer, front, rfl, hfront⟩, hback⟩
  | len after ih =>
      obtain ⟨count, hrest⟩ := hends
      obtain ⟨front, back, value, rfl, hfront, hback⟩ := ih count hrest
      exact ⟨front, back, value, rfl, ⟨count, hfront⟩, hback⟩

namespace StreamLog

/-! ### The reply to a subscription -/

def isSub (parts : List (List Char)) : Bool := name parts = "SUB".toList && 3 ≤ parts.length

/-- The offset a subscription starts from. -/
def start (parts : List (List Char)) : Int64 :=
  max ((parseI64 (trim (parts.getD 2 []))).getD 1) 1

/-- The op that reads the length of the topic. -/
def lengthOp (client : UInt32) (seq : UInt64) (parts : List (List Char)) : Op :=
  { client, seq := seq + 1, kind := .get (counterKey (topicOf parts)) }

/-- The messages of a reply, as bytes. -/
def render (shown : List (Int64 × Bytes)) : Bytes :=
  shown.flatMap fun entry =>
    asBytes ("MSG " ++ showI64 entry.1 ++ " " ++ toString entry.2.length ++ "\r\n") ++ entry.2
      ++ asBytes "\r\n"

/-- The message an answer has, under an offset. -/
def shownAt (offset : Int64) (answer : Option Output) : List (Int64 × Bytes) :=
  match answer with
  | some (.bytes (some message)) => [(offset, message)]
  | _ => []

/-- The messages the answers have, from an offset on. -/
def shownFrom : Int64 → List (Op × Option Output) → List (Int64 × Bytes)
  | _, [] => []
  | offset, answer :: answers => shownAt offset answer.2 ++ shownFrom (offset + 1) answers

theorem replay_ends {client : UInt32} {topic : List Char} {count : Nat} {offset : Int64}
    {seq : UInt64} {answers : List (Op × Option Output)} {result : UInt64 × Bytes}
    (hends : (replay client topic count offset seq).Ends answers result) :
    answers.length = count ∧ result.2 = render (shownFrom offset answers)
      ∧ ∀ (i : Nat) (op : Op) (out : Option Output), answers[i]? = some (op, out) →
        op.kind = .get (messageKey topic (offset + Int64.ofNat i)) := by
  induction count generalizing offset seq answers result with
  | zero =>
      obtain ⟨rfl, rfl⟩ := hends
      exact ⟨rfl, rfl, fun i op out hop => by cases hop⟩
  | succ count ih =>
      obtain ⟨answer, rest, rfl, hrest⟩ := hends
      change (Conv.bind (replay client topic count (offset + 1) (seq + 1)) _).Ends rest result at hrest
      obtain ⟨front, back, value, rfl, hfront, hback⟩ := Conv.ends_bind hrest
      obtain ⟨hlength, hbytes, hkinds⟩ := ih hfront
      obtain ⟨last, later⟩ := value
      dsimp only at hbytes hback
      have hlast : back = [] ∧ result.2 = render (shownAt offset answer) ++ later := by
        split at hback
        · obtain ⟨rfl, rfl⟩ := hback
          exact ⟨rfl, by simp [shownAt, render]⟩
        · rename_i hother
          obtain ⟨rfl, rfl⟩ := hback
          refine ⟨rfl, ?_⟩
          rw [shownAt]
          · rfl
          · exact hother
      obtain ⟨rfl, hresult⟩ := hlast
      rw [List.append_nil]
      refine ⟨by rw [List.length_cons, hlength], ?_, fun i op out hop => ?_⟩
      · rw [hresult, hbytes, shownFrom, render, render, render, List.flatMap_append]
      · cases i with
        | zero =>
            obtain ⟨rfl, rfl⟩ := Prod.mk.inj (Option.some.inj hop)
            rw [show offset + Int64.ofNat 0 = offset from Int64.add_zero offset]
        | succ i =>
            have hkind := hkinds i op out hop
            have hsum : offset + 1 + Int64.ofNat i = offset + Int64.ofNat (i + 1) := by
              rw [Int64.ofNat_add, Int64.add_comm (Int64.ofNat i), ← Int64.add_assoc]
              rfl
            rwa [hsum] at hkind

theorem isSub_iff {parts : List (List Char)} :
    isSub parts = true ↔ name parts = "SUB".toList ∧ 3 ≤ parts.length := by
  rw [isSub, Bool.and_eq_true, decide_eq_true_eq, decide_eq_true_eq]

/-- What a subscription comes to. -/
theorem output_sub {client : UInt32} {seq : UInt64} {parts : List (List Char)}
    (hsub : isSub parts = true) {answers : List (Op × Option Output)} {turn : Turn UInt64}
    (hends : (serve client seq parts).Ends answers turn) :
    ∃ out rest, answers = (lengthOp client seq parts, out) :: rest
      ∧ rest.length = ((topicLength out).toInt - (start parts).toInt + 1).toNat
      ∧ turn.output = render (shownFrom (start parts) rest) ++ asBytes "END\r\n"
      ∧ ∀ (i : Nat) (op : Op) (answer : Option Output), rest[i]? = some (op, answer) →
        op.kind = .get (messageKey (topicOf parts) (start parts + Int64.ofNat i)) := by
  obtain ⟨hname, hlength⟩ := isSub_iff.mp hsub
  have hpub : ¬(name parts = "PUB".toList ∧ 3 ≤ parts.length) := by
    rintro ⟨hother, -⟩
    rw [hname] at hother
    exact absurd hother (by decide)
  rw [serve, if_neg hpub, if_pos ⟨hname, hlength⟩] at hends
  obtain ⟨out, rest, rfl, hrest⟩ := hends
  change (Conv.bind (replay client (topicOf parts) _ (start parts) (seq + 1)) _).Ends rest turn at hrest
  obtain ⟨front, back, value, rfl, hfront, rfl, rfl⟩ := Conv.ends_bind hrest
  obtain ⟨hcount, houtput, hkinds⟩ := replay_ends hfront
  refine ⟨out, front, ?_, hcount, ?_, hkinds⟩
  · rw [List.append_nil]
    rfl
  · rw [← houtput]

theorem mem_shownAt {offset : Int64} {answer : Option Output} {entry : Int64 × Bytes} :
    entry ∈ shownAt offset answer
      ↔ answer = some (.bytes (some entry.2)) ∧ entry.1 = offset := by
  obtain ⟨place, message⟩ := entry
  unfold shownAt
  split
  · rename_i other
    rw [List.mem_singleton]
    constructor
    · rintro ⟨rfl, rfl⟩
      exact ⟨rfl, rfl⟩
    · rintro ⟨hsame, rfl⟩
      cases hsame
      rfl
  · rename_i hother
    refine iff_of_false List.not_mem_nil ?_
    rintro ⟨rfl, -⟩
    exact hother message rfl

theorem mem_shownFrom {offset : Int64} {answers : List (Op × Option Output)}
    {entry : Int64 × Bytes} :
    entry ∈ shownFrom offset answers ↔ ∃ (i : Nat) (op : Op),
      answers[i]? = some (op, some (.bytes (some entry.2))) ∧ entry.1 = offset + Int64.ofNat i := by
  induction answers generalizing offset with
  | nil =>
      refine iff_of_false List.not_mem_nil ?_
      rintro ⟨i, op, hop, -⟩
      cases hop
  | cons answer answers ih =>
      obtain ⟨first, out⟩ := answer
      have hsum : ∀ i : Nat, offset + 1 + Int64.ofNat i = offset + Int64.ofNat (i + 1) := by
        intro i
        rw [Int64.ofNat_add, Int64.add_comm (Int64.ofNat i), ← Int64.add_assoc]
        rfl
      have hzero : offset + Int64.ofNat 0 = offset := Int64.add_zero offset
      rw [shownFrom, List.mem_append, mem_shownAt, ih]
      constructor
      · rintro (⟨hout, hoffset⟩ | ⟨i, op, hop, hoffset⟩)
        · refine ⟨0, first, ?_, by rw [hzero, hoffset]⟩
          rw [← hout]
          rfl
        · exact ⟨i + 1, op, hop, by rw [hoffset, hsum]⟩
      · rintro ⟨i, op, hop, hoffset⟩
        cases i with
        | zero =>
            left
            obtain ⟨-, hout⟩ := Prod.mk.inj (Option.some.inj hop)
            exact ⟨hout, by rw [hoffset, hzero]⟩
        | succ i => exact .inr ⟨i, op, hop, by rw [hoffset, hsum]⟩

/-- Offsets do not wrap below the length of a topic. -/
theorem toInt_add_ofNat {offset : Int64} {i : Nat} (hpositive : 0 < offset.toInt)
    (hbelow : offset.toInt + i < 9223372036854775808) :
    (offset + Int64.ofNat i).toInt = offset.toInt + i := by
  rw [Int64.toInt_add, Int64.toInt_ofNat_of_lt (by omega)]
  exact Int.bmod_eq_of_le (by omega) (by omega)

theorem pairwise_shownFrom {offset : Int64} {answers : List (Op × Option Output)}
    (hpositive : 0 < offset.toInt)
    (hbelow : offset.toInt + answers.length < 9223372036854775808) :
    (shownFrom offset answers).Pairwise fun earlier later => earlier.1 < later.1 := by
  induction answers generalizing offset with
  | nil => exact List.Pairwise.nil
  | cons answer answers ih =>
      rw [List.length_cons] at hbelow
      have hnext : (offset + 1).toInt = offset.toInt + 1 := by
        have hadd := @toInt_add_ofNat offset 1 hpositive (by omega)
        exact hadd
      rw [shownFrom, List.pairwise_append]
      refine ⟨?_, ih (by omega) (by omega), fun entry hentry other hother => ?_⟩
      · unfold shownAt
        split
        · exact List.pairwise_singleton _ _
        · exact List.Pairwise.nil
      · obtain ⟨-, hentry⟩ := mem_shownAt.mp hentry
        obtain ⟨i, op, hop, hother⟩ := mem_shownFrom.mp hother
        have hi := (List.getElem?_eq_some_iff.mp hop).1
        rw [hentry, hother, Int64.lt_iff_toInt_lt, toInt_add_ofNat (by omega) (by omega)]
        omega

/-- The length of a topic. -/
def lengthOf (store : KvStore) (topic : List Char) : Int64 :=
  topicLength (some (.bytes store.map[counterKey topic]?))

theorem lengthOf_after {ops : List Op} (hissues : ∀ op ∈ ops, Issues op) (topic : List Char) :
    lengthOf (after ops) topic = Int64.ofNat (taken topic ops) := by
  rw [lengthOf, getElem?_counterKey hissues]
  split
  · rename_i hzero
    rw [hzero]
    rfl
  · rw [topicLength, fromUtf8_asBytes, Option.bind_some, parseI64_showI64, Option.getD_some]

section Executions

variable {handed : Nat} {executions : List (Execution streamlog)} {world : World streamlog}

/-- What is once stored under an offset stays. -/
theorem message_stays (hcontinues : Continues handed executions world)
    (hfew : executions.length < 9223372036854775807) {topic : List Char} {offset : Int64}
    {message : Bytes} {count more : Nat} (hle : count ≤ more)
    (hget : (after ((executions.map Execution.op).take count)).map[messageKey topic offset]?
      = some message) :
    (after ((executions.map Execution.op).take more)).map[messageKey topic offset]? = some message := by
  have hissues : ∀ count, ∀ op ∈ (executions.map Execution.op).take count, Issues op := by
    intro count op hop
    rw [← List.map_take] at hop
    exact issues hcontinues hop
  obtain ⟨place, op, hop, hkind⟩ := exists_stores (hissues count) hget
  obtain ⟨hplace, -⟩ := List.getElem?_eq_some_iff.mp hop
  rw [List.length_take] at hplace
  rw [List.getElem?_take_of_lt (by omega)] at hop
  refine @getElem?_messageKey _ (hissues more) _ _ _ place ⟨op, ?_, hkind⟩ ?_
  · rw [List.getElem?_take_of_lt (by omega)]
    exact hop
  · intro later other value hother hkind'
    obtain ⟨hlater, -⟩ := List.getElem?_eq_some_iff.mp hother
    rw [List.length_take] at hlater
    rw [List.getElem?_take_of_lt (by omega)] at hother
    rw [List.getElem?_map] at hop hother
    obtain ⟨first, hfirst, rfl⟩ := Option.map_eq_some_iff.mp hop
    obtain ⟨second, hsecond, rfl⟩ := Option.map_eq_some_iff.mp hother
    exact stores_unique hcontinues hfew hsecond hfirst hkind' hkind

/-- A message has an offset within the length of its topic at the time. -/
theorem offset_le_taken (hcontinues : Continues handed executions world) {topic : List Char}
    {offset : Int64} {message : Bytes} {count : Nat}
    (hget : (after ((executions.map Execution.op).take count)).map[messageKey topic offset]?
      = some message) :
    ∃ before < taken topic ((executions.map Execution.op).take count),
      offset = Int64.ofNat (before + 1) := by
  have hissues : ∀ op ∈ (executions.map Execution.op).take count, Issues op := by
    intro op hop
    rw [← List.map_take] at hop
    exact issues hcontinues hop
  obtain ⟨place, op, hop, hkind⟩ := exists_stores hissues hget
  obtain ⟨hplace, -⟩ := List.getElem?_eq_some_iff.mp hop
  rw [List.length_take] at hplace
  rw [List.getElem?_take_of_lt (by omega), List.getElem?_map] at hop
  obtain ⟨execution, hexecution, rfl⟩ := Option.map_eq_some_iff.mp hop
  obtain ⟨parts, first, hfirst, -, rfl, -, -, htaken, hoffset⟩ :=
    takes_of_stores hcontinues hexecution hkind
  refine ⟨_, ?_, hoffset⟩
  have hop : (executions.map Execution.op)[first]?
      = some (takeOp execution.serving.client execution.serving.conn parts) := by
    rw [List.getElem?_map, htaken]
    rfl
  exact @taken_take_lt _ (topicOf parts) _ _ _ hop rfl (by omega)

/-- An execution has one place. -/
theorem place_unique (hcontinues : Continues handed executions world) {first second : Nat}
    {execution : Execution streamlog} (hfirst : executions[first]? = some execution)
    (hsecond : executions[second]? = some execution) : first = second := by
  have hlength : first < (executions.map Execution.key).length := by
    rw [List.length_map]
    exact (List.getElem?_eq_some_iff.mp hfirst).1
  refine (List.getElem?_inj hlength hcontinues.serves.executes.keys).mp ?_
  rw [List.getElem?_map, List.getElem?_map, hfirst, hsecond]

/-- The length a subscription reads. -/
theorem topicLength_read (hcontinues : Continues handed executions world) {client : UInt32}
    {seq : UInt64} {parts : List (List Char)} {read : Nat} {out : Output}
    (hout : out = ((stored StateMachine.default (executions.take read)).apply
      (lengthOp client seq parts)).2) :
    topicLength (some out)
      = Int64.ofNat (taken (topicOf parts) ((executions.map Execution.op).take read)) := by
  have hissues : ∀ op ∈ (executions.map Execution.op).take read, Issues op := by
    intro op hop
    rw [← List.map_take] at hop
    exact issues hcontinues hop
  have hbytes : out = .bytes
      (after ((executions.map Execution.op).take read)).map[counterKey (topicOf parts)]? := by
    rw [hout, stored_eq_after]
    rfl
  rw [hbytes]
  exact lengthOf_after hissues (topicOf parts)

/-- What a subscription shows when it reads the length of its topic behind these ops: in the order of
the offsets, messages that the store keeps, and every one that was there. -/
structure Shows (before : List Op) (store : KvStore) (parts : List (List Char))
    (shown : List (Int64 × Bytes)) : Prop where
  ordered : shown.Pairwise fun earlier later => earlier.1 < later.1
  kept : ∀ entry ∈ shown, start parts ≤ entry.1
    ∧ store.map[messageKey (topicOf parts) entry.1]? = some entry.2
  complete : ∀ offset message, start parts ≤ offset →
    (after before).map[messageKey (topicOf parts) offset]? = some message → (offset, message) ∈ shown

theorem one_le_start (parts : List (List Char)) : 1 ≤ (start parts).toInt := by
  have hle : (1 : Int64) ≤ start parts := by
    change 1 ≤ if _ ≤ (1 : Int64) then 1 else (parseI64 (trim (parts.getD 2 []))).getD 1
    split
    · exact Int64.le_refl 1
    · rename_i hless
      exact Int64.le_of_lt (Int64.not_le.mp hless)
  exact Int64.le_iff_toInt_le.mp hle

/-- The reads of a subscription, each at its place. -/
theorem reads_explained (hcontinues : Continues handed executions world)
    {reply : Served streamlog} (hreply : reply ∈ world.replies) {parts : List (List Char)}
    {out : Output} {rest : List (Op × Option Output)}
    (hanswers : reply.answers = (lengthOp reply.client reply.conn parts, some out) :: rest)
    {read : Nat} (hread : executions[read]? = some
      { serving := reply.serving, answers := [], op := lengthOp reply.client reply.conn parts })
    {i : Nat} {op : Op} {answer : Output} (hop : rest[i]? = some (op, some answer)) {key : String}
    (hkind : op.kind = .get key) :
    ∃ behind, read ≤ behind ∧ behind ≤ executions.length
      ∧ answer = .bytes (after ((executions.map Execution.op).take behind)).map[key]? := by
  obtain ⟨place, hplace, hexplained⟩ := hcontinues.serves.executes.replies reply hreply
  obtain ⟨hi, hget⟩ := List.getElem?_eq_some_iff.mp hop
  have hsplit : reply.answers = ((lengthOp reply.client reply.conn parts, some out) :: rest.take i)
      ++ (op, some answer) :: rest.drop (i + 1) := by
    rw [hanswers, List.cons_append, ← hget, List.getElem_cons_drop, List.take_append_drop]
  rw [hsplit] at hexplained
  obtain ⟨earlier, behind, hle, hbehind, hfront, -, hanswer⟩ := hexplained.split
  obtain ⟨-, first, -, hfirst, -, hread', -⟩ := @Explained.split streamlog _ _ _ _ [] _ _ _ hfront
  obtain rfl := place_unique hcontinues hread hread'
  refine ⟨behind, by omega, by omega, ?_⟩
  rw [hanswer, stored_eq_after, KvStore.apply, hkind]

/-- What a subscription has been answered: the length of its topic, and then what was under each offset
up to it, each answer at its place. -/
theorem reads_of_replied (hcontinues : Continues handed executions world)
    (hfew : executions.length < 9223372036854775807) {reply : Served streamlog}
    (hreply : reply ∈ world.replies) {parts : List (List Char)} (hrequest : reply.request = some parts)
    (hsub : isSub parts = true) :
    ∃ (read : Nat) (out : Output) (rest : List (Op × Option Output)),
      executions[read]? = some
          { serving := reply.serving, answers := [], op := lengthOp reply.client reply.conn parts }
        ∧ reply.answers = (lengthOp reply.client reply.conn parts, some out) :: rest
        ∧ topicLength (some out)
          = Int64.ofNat (taken (topicOf parts) ((executions.map Execution.op).take read))
        ∧ rest.length = ((taken (topicOf parts) ((executions.map Execution.op).take read) : Int)
          - (start parts).toInt + 1).toNat
        ∧ reply.output = render (shownFrom (start parts) rest) ++ asBytes "END\r\n"
        ∧ ∀ (i : Nat) (answer : Op × Option Output), rest[i]? = some answer →
          ∃ behind, read ≤ behind ∧ behind ≤ executions.length
            ∧ answer.2 = some (.bytes (after ((executions.map Execution.op).take behind)).map[
              messageKey (topicOf parts) (start parts + Int64.ofNat i)]?) := by
  obtain ⟨-, asked, turn, hasked, houtput, hends⟩ := hcontinues.serves.replied reply hreply
  obtain rfl : parts = asked := Option.some.inj (hrequest.symm.trans hasked)
  obtain ⟨out, rest, hanswers, hlength, hshown, hkinds⟩ := output_sub hsub hends
  have hattended : ∀ answer ∈ reply.answers, answer.2 ≠ none :=
    hcontinues.attended.replies reply hreply
  obtain ⟨out, rfl⟩ := Option.ne_none_iff_exists'.mp
    (hattended (lengthOp reply.client reply.conn parts, out) (by rw [hanswers]; exact List.mem_cons_self))
  -- where the length was read
  obtain ⟨place, hplace, hexplained⟩ := hcontinues.serves.executes.replies reply hreply
  rw [hanswers] at hexplained
  obtain ⟨-, read, -, -, -, hread, hout⟩ := @Explained.split streamlog _ _ _ _ [] _ _ _ hexplained
  have htopic := topicLength_read hcontinues hout
  have htaken := @taken_le executions (topicOf parts) read
  rw [htopic, Int64.toInt_ofNat_of_lt (by omega)] at hlength
  refine ⟨read, out, rest, hread, hanswers, htopic, hlength, houtput.trans hshown, ?_⟩
  rintro i ⟨op, answer⟩ hop
  obtain ⟨answer, rfl⟩ := Option.ne_none_iff_exists'.mp (hattended (op, answer)
    (by rw [hanswers]; exact List.mem_cons_of_mem _ (List.mem_of_getElem? hop)))
  obtain ⟨behind, hle, hbehind, hanswer⟩ :=
    reads_explained hcontinues hreply hanswers hread hop (hkinds i op _ hop)
  exact ⟨behind, hle, hbehind, congrArg some hanswer⟩

/-- A subscription shows what is there when it reads the length. -/
theorem shows_of_replied (hcontinues : Continues handed executions world)
    (hfew : executions.length < 9223372036854775807) {reply : Served streamlog}
    (hreply : reply ∈ world.replies) {parts : List (List Char)} (hrequest : reply.request = some parts)
    (hsub : isSub parts = true) :
    ∃ (read : Nat) (shown : List (Int64 × Bytes)),
      executions[read]? = some
          { serving := reply.serving, answers := [], op := lengthOp reply.client reply.conn parts }
        ∧ reply.output = render shown ++ asBytes "END\r\n"
        ∧ Shows ((executions.map Execution.op).take read) (after (executions.map Execution.op)) parts
          shown := by
  obtain ⟨read, out, rest, hread, -, -, hlength, houtput, hplaces⟩ :=
    reads_of_replied hcontinues hfew hreply hrequest hsub
  have htaken := @taken_le executions (topicOf parts) read
  have hstart := one_le_start parts
  have hbound : (start parts).toInt < 9223372036854775808 := (start parts).toInt_lt
  have hnumber : ∀ i < rest.length, (start parts + Int64.ofNat i).toInt = (start parts).toInt + i :=
    fun i hi => toInt_add_ofNat (by omega) (by omega)
  refine ⟨read, shownFrom (start parts) rest, hread, houtput, ?_, ?_, ?_⟩
  · exact pairwise_shownFrom (by omega) (by omega)
  · intro entry hentry
    obtain ⟨i, op, hop, hoffset⟩ := mem_shownFrom.mp hentry
    have hi := (List.getElem?_eq_some_iff.mp hop).1
    obtain ⟨behind, -, hbehind, hanswer⟩ := hplaces i _ hop
    rw [hoffset]
    refine ⟨?_, ?_⟩
    · rw [Int64.le_iff_toInt_le, hnumber i hi]
      omega
    · have hstays := message_stays hcontinues hfew hbehind
        (Output.bytes.inj (Option.some.inj hanswer)).symm
      rwa [List.take_of_length_le (by rw [List.length_map])] at hstays
  · intro offset message hle hget
    obtain ⟨before, hbefore, rfl⟩ := offset_le_taken hcontinues hget
    rw [Int64.le_iff_toInt_le, Int64.toInt_ofNat_of_lt (by omega)] at hle
    obtain ⟨i, hi⟩ := Int.eq_ofNat_of_zero_le (show 0 ≤ (before + 1 : Nat) - (start parts).toInt by omega)
    have hless : i < rest.length := by omega
    have hoffset : Int64.ofNat (before + 1) = start parts + Int64.ofNat i := by
      rw [← Int64.toInt_inj, hnumber i hless, Int64.toInt_ofNat_of_lt (by omega)]
      omega
    have hop := List.getElem?_eq_getElem hless
    obtain ⟨behind, hbehind, -, hanswer⟩ := hplaces i _ hop
    rw [← hoffset, message_stays hcontinues hfew hbehind hget] at hanswer
    refine mem_shownFrom.mpr ⟨i, rest[i].1, ?_, hoffset⟩
    rw [hop]
    exact congrArg some (Prod.ext rfl hanswer)

end Executions

section Runs

variable {interval : UInt64} {events : List (WorldEvent streamlog)}

/-- **A subscription misses nothing and shows nothing that is lost.** Any connections, any
interleaving, any crashes between durable steps and any restarts: the reply to a subscription is, in
the order of the offsets, messages that stay under their offsets, in the engine and in what a restart
finds, among them every one from the start on that was there when the length was read. -/
theorem subscription_complete (hpersists : Run.Guarded World.step (World.Persists numbering)
      (World.start interval) events)
    (hids : events.countP WorldEvent.accepts < 2 ^ 32 - 1)
    (hlength : events.length < 9223372036854775807) :
    let world := Run.run World.step (World.start interval : World streamlog) events
    let executions := Run.trace World.step World.executes (World.start interval) events
    ∀ reply ∈ world.replies, ∀ parts, reply.request = some parts → isSub parts = true →
      ∃ (read : Nat) (shown : List (Int64 × Bytes)),
        executions[read]? = some
            { serving := reply.serving, answers := [], op := lengthOp reply.client reply.conn parts }
          ∧ reply.output = render shown ++ asBytes "END\r\n"
          ∧ (∀ engine ∈ world.history.engine,
            Shows ((executions.map Execution.op).take read) engine.state parts shown)
          ∧ ∀ next, Shows ((executions.map Execution.op).take read)
            (startEngine world.history.disk next).state parts shown := by
  intro world executions reply hreply parts hrequest hsub
  have hcontinues := continues hpersists hids
  have hfew := Nat.lt_of_le_of_lt (length_trace_le (World.start interval) events) hlength
  have hruns := World.runs_atomic (World.Persists.atomic hpersists)
  obtain ⟨read, shown, hread, houtput, hshows⟩ :=
    shows_of_replied hcontinues hfew hreply hrequest hsub
  refine ⟨read, shown, hread, houtput, fun engine hengine => ?_, fun next => ?_⟩
  · rw [(store_eq_after hcontinues hruns 0).2 engine hengine]
    exact hshows
  · rw [(store_eq_after hcontinues hruns next).1]
    exact hshows

def sub (first : Char) : List (List Char) := ["SUB".toList, ['a'], [first]]

/-- A message is published while the offset in front of it is taken and nothing is stored there yet, the
topic is read, and the process dies. -/
def subscribeAndCrash : List (WorldEvent streamlog) :=
  [.accept 0 1, .accept 1 2, .request 0 (pub 'x'), .request 1 (pub 'y')]
    ++ call 0 ++ call 1 ++ call 1 ++ [.reply 1, .request 1 (sub '1')]
    ++ call 1 ++ call 1 ++ call 1 ++ [.reply 1, .crash]

theorem subscription_complete_subscribeAndCrash :
    (some (sub '1'), asBytes "MSG 2 1\r\ny\r\nEND\r\n")
        ∈ shown (Run.run World.step (World.start 2) subscribeAndCrash)
      ∧ ∃ (read : Nat) (shown : List (Int64 × Bytes)),
        asBytes "MSG 2 1\r\ny\r\nEND\r\n" = render shown ++ asBytes "END\r\n"
          ∧ Shows (((Run.trace World.step World.executes (World.start 2 : World streamlog)
              subscribeAndCrash).map Execution.op).take read)
            (startEngine (Run.run World.step (World.start 2 : World streamlog)
              subscribeAndCrash).history.disk 2).state (sub '1') shown := by
  have hmem : (some (sub '1'), asBytes "MSG 2 1\r\ny\r\nEND\r\n")
      ∈ shown (Run.run World.step (World.start 2) subscribeAndCrash) := by decide +kernel
  obtain ⟨reply, hreply, hfields⟩ := List.mem_map.mp hmem
  obtain ⟨hrequest, houtput⟩ := Prod.mk.inj hfields
  have hpersists : Run.Guarded World.step (World.Persists numbering) (World.start 2)
      subscribeAndCrash := by decide +kernel
  obtain ⟨read, messages, -, hrender, -, hshows⟩ := subscription_complete hpersists
    (by decide +kernel) (by decide +kernel) reply hreply (sub '1') hrequest (by decide)
  exact ⟨hmem, read, messages, houtput.symm.trans hrender, hshows 2⟩

end Runs

end StreamLog

end OneBarrier
