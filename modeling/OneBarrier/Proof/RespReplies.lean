import OneBarrier.Proof.Framing
import OneBarrier.Proof.Partial
import OneBarrier.Lib.Resp2
import Mathlib.Data.List.TakeWhile

/-!
# Replies as a RESP2 client reads them

A pipelined client takes the values of the reply stream for the replies to its commands, one by one.
That works as long as every reply is one value. Bulk strings may hold anything; the error for an
unknown command quotes the command's name in a line of its own, and a name with a CR LF in it ends
that line early.
-/

namespace OneBarrier

open Wire Input Utf8 Text

namespace Conv

variable {α β γ σ : Type}

theorem bind_assoc (conv : Conv α) (next : α → Conv β) (last : β → Conv γ) :
    (conv.bind next).bind last = conv.bind fun value => (next value).bind last := by
  induction conv with
  | ret value => rfl
  | apply op after ih =>
      have hafter : (fun out => ((after out).bind next).bind last)
          = fun out => (after out).bind fun value => (next value).bind last := by
        funext out
        exact ih out
      exact congrArg (apply op) hafter
  | len after ih =>
      have hafter : (fun count => ((after count).bind next).bind last)
          = fun count => (after count).bind fun value => (next value).bind last := by
        funext count
        exact ih count
      exact congrArg len hafter

/-- Whatever is answered, the result has the property. -/
def Gives (property : α → Prop) : Conv α → Prop
  | ret value => property value
  | apply _ next => ∀ answer, (next answer).Gives property
  | len next => ∀ count, (next count).Gives property

theorem Gives.bind {property : α → Prop} {property' : β → Prop} {conv : Conv α}
    {next : α → Conv β} (hconv : conv.Gives property)
    (hnext : ∀ value, property value → (next value).Gives property') :
    (conv.bind next).Gives property' := by
  induction conv with
  | ret value => exact hnext value hconv
  | apply op after ih => exact fun answer => ih answer (hconv answer)
  | len after ih => exact fun count => ih count (hconv count)

theorem gives_ite {property : α → Prop} {condition : Prop} [Decidable condition]
    {first second : Conv α} (hfirst : condition → first.Gives property)
    (hsecond : ¬ condition → second.Gives property) :
    (if condition then first else second).Gives property := by
  split
  · exact hfirst ‹_›
  · exact hsecond ‹_›

theorem gives_of_forall {property : α → Prop} (hproperty : ∀ value, property value) (conv : Conv α) :
    conv.Gives property := by
  induction conv with
  | ret value => exact hproperty value
  | apply op after ih => exact fun answer => ih answer
  | len after ih => exact fun count => ih count

section Against

variable {answer : σ → Op → σ × Option Output} {count : σ → Option Nat} {state : σ}

theorem Gives.against {property : α → Prop} {conv : Conv α} (hconv : conv.Gives property) :
    property (conv.against answer count state).2 := by
  induction conv generalizing state with
  | ret value => exact hconv
  | apply op after ih => exact ih _ (hconv _)
  | len after ih => exact ih _ (hconv _)

/-- What comes after a conversation goes on from the state the service is left in. -/
theorem exists_against_bind (conv : Conv α) (next : α → Conv β) : ∃ later,
    ((conv.bind next).against answer count state).2
      = ((next (conv.against answer count state).2).against answer count later).2 := by
  induction conv generalizing state with
  | ret value => exact ⟨state, rfl⟩
  | apply op after ih => exact ih _
  | len after ih => exact ih _

end Against

end Conv

namespace Resp

open Resp2 (crlf Value)

/-! ### One reply -/

namespace Reply

mutual

/-- The value a reply stands for. -/
def value : Reply → Value
  | simple text => .simple (asBytes text)
  | error text => .error (asBytes text)
  | int value => .int value
  | bulk value => .bulk value
  | array items => .array (some (values items))

def values : List Reply → List Value
  | [] => []
  | item :: items => value item :: values items

end

mutual

/-- No line of the reply has a CR LF in it. -/
def Clean : Reply → Prop
  | simple text | error text => ¬ crlf <:+: asBytes text
  | int _ | bulk _ => True
  | array items => AllClean items

def AllClean : List Reply → Prop
  | [] => True
  | item :: items => Clean item ∧ AllClean items

end

theorem length_values (items : List Reply) : (values items).length = items.length := by
  induction items with
  | nil => rfl
  | cons item items ih => rw [values, List.length_cons, List.length_cons, ih]

theorem not_infix_of_notMem {text : List Char} (htext : ∀ char ∈ text, char.isDigit = true ∨ char = '-') :
    ¬ crlf <:+: asBytes (String.ofList text) := by
  intro hpair
  have hmem : (13 : UInt8) ∈ asBytes (String.ofList text) := hpair.subset (by simp [crlf])
  rw [asBytes, String.toList_ofList] at hmem
  obtain ⟨char, hchar, hbyte⟩ := List.mem_flatMap.mp hmem
  obtain hdigit | rfl := htext char hchar
  · rw [Char.isDigit, Bool.and_eq_true] at hdigit
    have hlow : 48 ≤ char.val.toNat := by simpa [UInt32.le_iff_toNat_le] using hdigit.1
    have hhigh : char.val.toNat ≤ 57 := by simpa [UInt32.le_iff_toNat_le] using hdigit.2
    rw [String.utf8EncodeChar] at hbyte
    simp only [show char.val.toNat ≤ 127 by omega, if_true, List.mem_singleton] at hbyte
    have hnat := congrArg UInt8.toNat hbyte
    rw [toNat_ofNat_of_lt (by omega)] at hnat
    change 13 = char.val.toNat at hnat
    omega
  · exact absurd hbyte (by decide)

theorem not_infix_showNat (number : Nat) : ¬ crlf <:+: asBytes (toString number) :=
  not_infix_of_notMem fun _ hchar =>
    .inl (Nat.isDigit_of_mem_toDigits (by decide) (by decide) hchar)

theorem size_showNat (number : Nat) : Resp2.size (asBytes (toString number)) = some number := by
  rw [Resp2.size, fromUtf8_asBytes, Option.bind_some, toList_toString_nat, parseDigits_toDigits]

theorem showNat_ne_minus (number : Nat) : asBytes (toString number) ≠ asBytes "-1" := by
  intro heq
  have hsize := size_showNat number
  have hminus : Resp2.size (asBytes "-1") = none := by decide
  rw [heq, hminus] at hsize
  cases hsize

/-- A line of the reply: its mark, its text and its end. -/
theorem asBytes_line {mark : String} {byte : UInt8} (hmark : asBytes mark = [byte]) (text : String) :
    asBytes (mark ++ text ++ "\r\n") = [byte] ++ (asBytes text ++ crlf) := by
  rw [asBytes_append, asBytes_append, hmark, List.append_assoc]
  rfl

theorem toBytes_ne_nil (reply : Reply) : reply.toBytes ≠ [] := by
  cases reply with
  | simple text => rw [toBytes, asBytes_line rfl]; exact List.cons_ne_nil _ _
  | error text => rw [toBytes, asBytes_line rfl]; exact List.cons_ne_nil _ _
  | int value => rw [toBytes, asBytes_line rfl]; exact List.cons_ne_nil _ _
  | bulk value =>
      cases value with
      | none => rw [toBytes]; exact List.cons_ne_nil _ _
      | some value => rw [toBytes, asBytes_line rfl]; exact List.cons_ne_nil _ _
  | array items => rw [toBytes, asBytes_line rfl]; exact List.cons_ne_nil _ _

mutual

/-- A clean reply is read back as the value it stands for, whatever follows it. -/
theorem toBytes_exact (reply : Reply) (hclean : reply.Clean) {depth : Nat}
    (hdepth : reply.toBytes.length ≤ depth) :
    Exact (Resp2.readValue depth) reply.toBytes reply.value := by
  obtain ⟨depth, rfl⟩ := Nat.exists_eq_succ_of_ne_zero
    (Nat.ne_of_gt (Nat.lt_of_lt_of_le (List.length_pos_iff.mpr reply.toBytes_ne_nil) hdepth))
  match reply with
  | .simple text =>
      rw [Clean] at hclean
      rw [toBytes, value, asBytes_line rfl]
      exact Resp2.simple_exact depth hclean
  | .error text =>
      rw [Clean] at hclean
      rw [toBytes, value, asBytes_line rfl]
      exact Resp2.error_exact depth hclean
  | .int number =>
      have hshow : showI64 number = String.ofList (showI64 number).toList := String.ofList_toList.symm
      rw [toBytes, value, asBytes_line rfl]
      refine Resp2.int_exact depth ?_ ?_
      · rw [hshow]
        exact not_infix_of_notMem fun char hchar => mem_showI64 hchar
      · rw [Resp2.integer, fromUtf8_asBytes, Option.bind_some, parseI64_showI64]
  | .bulk none =>
      rw [toBytes, value]
      exact Resp2.null_exact depth
  | .bulk (some body) =>
      rw [toBytes, value, asBytes_line rfl, List.append_assoc, List.append_assoc]
      exact Resp2.bulk_exact depth (not_infix_showNat _) (showNat_ne_minus _) (size_showNat _)
  | .array items =>
      rw [Clean] at hclean
      rw [toBytes, asBytes_line rfl] at hdepth ⊢
      rw [value, List.append_assoc]
      refine Resp2.array_exact depth (not_infix_showNat _) (showNat_ne_minus _) ?_ ?_
      · rw [size_showNat, length_values]
      · refine itemsToBytes_exact items hclean ?_
        simp only [List.length_append, List.length_singleton] at hdepth
        omega

theorem itemsToBytes_exact (items : List Reply) (hclean : AllClean items) {depth : Nat}
    (hdepth : (itemsToBytes items).length ≤ depth) :
    Exact (times (values items).length (Resp2.readValue depth)) (itemsToBytes items) (values items) := by
  match items with
  | [] =>
      rw [itemsToBytes, values]
      exact .pure []
  | item :: items =>
      rw [AllClean] at hclean
      rw [itemsToBytes] at hdepth ⊢
      rw [List.length_append] at hdepth
      have hitem := toBytes_exact item hclean.1 (show item.toBytes.length ≤ depth by omega)
      have hitems := itemsToBytes_exact items hclean.2 (show (itemsToBytes items).length ≤ depth by omega)
      rw [values]
      exact hitem.bind (hitems.bind_nil (.pure _))

end

end Reply

/-! ### A stream of commands -/

/-- A command in the array form: the count and the sizes in decimal, and at least a name. -/
structure Sent where
  count : Bytes
  bulks : List Bulk
  count_eq : Decimal count bulks.length
  sizes : ∀ bulk ∈ bulks, Decimal bulk.size bulk.arg.length
  nonempty : bulks ≠ []

namespace Sent

def args (sent : Sent) : List Bytes := sent.bulks.map Bulk.arg

def bytes (sent : Sent) : Bytes := arrayBytes sent.count sent.bulks

end Sent

/-- The argument list and every argument are small enough to be allocated. -/
def Fits (args : List Bytes) : Prop :=
  args.length * 24 < 2 ^ 63 ∧ ∀ arg ∈ args, arg.length + 2 < 2 ^ 63

instance (args : List Bytes) : Decidable (Fits args) := inferInstanceAs (Decidable (_ ∧ _))

/-- The argument list and every argument are allocated. -/
def Allocated (alloc : Allocator) (args : List Bytes) : Prop :=
  ¬ alloc.Refuses (args.length * 24) ∧ ∀ arg ∈ args, ¬ alloc.Refuses (arg.length + 2)

instance (alloc : Allocator) (args : List Bytes) : Decidable (Allocated alloc args) :=
  inferInstanceAs (Decidable (_ ∧ _))

theorem allocated_whole {args : List Bytes} : Allocated .whole args ↔ Fits args :=
  and_congr Nat.not_le (forall₂_congr fun _ _ => Nat.not_le)

variable {alloc : Allocator}

theorem readBulks_whole {bulks : List Bulk}
    (hsizes : ∀ bulk ∈ bulks, Decimal bulk.size bulk.arg.length) (rest : Source) :
    (Aborts (readBulksWith alloc bulks.length (arrive (bulks.flatMap Bulk.bytes) ++ rest))
        ∧ ∃ bulk ∈ bulks, alloc.Refuses (bulk.arg.length + 2))
      ∨ (readBulksWith alloc bulks.length (arrive (bulks.flatMap Bulk.bytes) ++ rest)
          = (.ok (bulks.map Bulk.arg), rest)
        ∧ ∀ bulk ∈ bulks, ¬ alloc.Refuses (bulk.arg.length + 2)) := by
  induction bulks with
  | nil => exact .inr ⟨rfl, nofun⟩
  | cons bulk bulks ih =>
      have hlater := ih fun other hmem => hsizes other (List.mem_cons_of_mem bulk hmem)
      rw [List.flatMap_cons, arrive_append, List.append_assoc]
      obtain ⟨haborts, hwide⟩ | ⟨hread, hnarrow⟩ := readBulk_whole (hsizes bulk List.mem_cons_self)
        (arrive (bulks.flatMap Bulk.bytes) ++ rest)
      · exact .inl ⟨aborts_bind haborts, bulk, List.mem_cons_self, hwide⟩
      obtain ⟨haborts, other, hmem, hwide⟩ | ⟨hreads, hnarrows⟩ := hlater
      · exact .inl ⟨aborts_bind_of_ok hread (aborts_bind haborts), other,
          List.mem_cons_of_mem bulk hmem, hwide⟩
      · refine .inr ⟨?_, List.forall_mem_cons.mpr ⟨hnarrow, hnarrows⟩⟩
        change (readBulkWith alloc >>= fun arg => readBulksWith alloc bulks.length >>= fun args =>
          pure (arg :: args) : Fallible (List Bytes)) _ = _
        rw [bind_of_ok hread, bind_of_ok hreads]
        rfl

theorem readCommandWith_sent (sent : Sent) (rest : Source) :
    (Aborts (readCommandWith alloc (arrive sent.bytes ++ rest)) ∧ ¬ Allocated alloc sent.args)
      ∨ (readCommandWith alloc (arrive sent.bytes ++ rest) = (.ok (some sent.args), rest)
        ∧ Allocated alloc sent.args) := by
  have hmark : (42 : UInt8) ≠ 10 ∧ (42 : UInt8) ≠ 13 := by decide
  have hsplit : arrive sent.bytes ++ rest = arrive (42 :: sent.count ++ [13])
      ++ some 10 :: (arrive (sent.bulks.flatMap Bulk.bytes) ++ rest) := by
    rw [Sent.bytes, arrayBytes, arrive_line, List.append_assoc]
    rfl
  have hline := readLine_line (header_notMem hmark.1 sent.count_eq.digits)
    (arrive (sent.bulks.flatMap Bulk.bytes) ++ rest)
  rw [chomp_header hmark sent.count_eq.digits, ← hsplit] at hline
  have hlength : sent.args.length = sent.bulks.length := List.length_map _
  obtain ⟨hstops, hwide⟩ | ⟨-, hnumber, -⟩ | ⟨-, hnarrow, hread⟩ :=
    readCommand_of_header sent.count_eq.digits hline
  · rw [sent.count_eq.value_eq] at hwide
    refine .inl ⟨hstops.aborts, fun hfits => ?_⟩
    have hbound := hfits.1
    rw [hlength] at hbound
    exact hbound (hwide.resolve_left sent.count_eq.nonempty)
  · rw [sent.count_eq.value_eq, List.length_eq_zero_iff] at hnumber
    exact absurd hnumber sent.nonempty
  · rw [sent.count_eq.value_eq] at hread hnarrow
    obtain ⟨haborts, bulk, hbulk, hwide⟩ | ⟨hreads, hnarrows⟩ := readBulks_whole sent.sizes rest
    · refine .inl ⟨hread ▸ aborts_bind haborts, fun hfits => ?_⟩
      exact hfits.2 bulk.arg (List.mem_map_of_mem hbulk) hwide
    · refine .inr ⟨?_, ?_, ?_⟩
      · rw [hread, bind_of_ok hreads]
        rfl
      · rw [hlength]
        exact hnarrow
      · intro arg harg
        obtain ⟨bulk, hbulk, rfl⟩ := List.mem_map.mp harg
        exact hnarrows bulk hbulk

theorem readCommand_sent (sent : Sent) (rest : Source) :
    (Aborts (readCommand (arrive sent.bytes ++ rest)) ∧ ¬ Fits sent.args)
      ∨ (readCommand (arrive sent.bytes ++ rest) = (.ok (some sent.args), rest) ∧ Fits sent.args) := by
  rw [← allocated_whole]
  exact readCommandWith_sent sent rest

theorem read_of_command {source rest : Source} {outcome : Except Failure (Option (List Bytes))}
    (hread : readCommand source = (outcome, rest)) :
    resp.read source = (received outcome, rest) := run_bind_of_eq hread

/-- The replies to a list of commands, in their order. -/
def dispatchAll (client : UInt32) : UInt64 → List (List Bytes) → Conv (List Reply)
  | _, [] => pure []
  | seq, args :: commands => do
      let reply ← dispatch args client (seq + 1)
      let replies ← dispatchAll client (seq + 1) commands
      pure (reply :: replies)

/-- The connection answers command by command, up to one that cannot be read. -/
theorem session_stream (client : UInt32) (seq : UInt64) (commands : List Sent)
    (hquit : ∀ sent ∈ commands, name sent.args ≠ asBytes "QUIT") :
    resp.session client seq (arrive (commands.flatMap Sent.bytes))
      = (dispatchAll client seq ((commands.map Sent.args).takeWhile fun args => Fits args)).bind
          fun replies => .ret (replies.flatMap Reply.toBytes) := by
  induction commands generalizing seq with
  | nil => rfl
  | cons sent commands ih =>
      have hlater := ih (seq + 1) fun other hmem => hquit other (List.mem_cons_of_mem sent hmem)
      refine (Frontend.session_eq_pass resp_framed seq _).trans ?_
      rw [List.flatMap_cons, arrive_append, List.map_cons]
      unfold Frontend.pass
      obtain ⟨haborts, hwide⟩ | ⟨hread, hfits⟩ :=
        readCommand_sent sent (arrive (commands.flatMap Sent.bytes))
      · have hclose := read_of_aborts haborts
        rw [List.takeWhile_cons_of_neg (by simp [hwide])]
        generalize resp.read (arrive sent.bytes ++ arrive (commands.flatMap Sent.bytes)) = result
          at hclose
        obtain ⟨received, rest⟩ := result
        obtain rfl : received = .close := hclose
        rfl
      · have hrequest : resp.read (arrive sent.bytes ++ arrive (commands.flatMap Sent.bytes))
            = (.request sent.args, arrive (commands.flatMap Sent.bytes)) := by
          have hargs : sent.args ≠ [] := fun hnil => sent.nonempty (List.map_eq_nil_iff.mp hnil)
          rw [read_of_command hread, received, if_neg hargs]
          rfl
        rw [hrequest, List.takeWhile_cons_of_pos (by simp [hfits])]
        have hserve : resp.serve client seq sent.args
            = (dispatch sent.args client (seq + 1)).bind fun reply =>
              .ret { conn := seq + 1, output := reply.toBytes } :=
          if_neg (hquit sent List.mem_cons_self)
        change (resp.serve client seq sent.args).bind _ = _
        rw [hserve, Conv.bind_assoc, dispatchAll]
        change _ = ((dispatch sent.args client (seq + 1)).bind _).bind _
        rw [Conv.bind_assoc]
        refine congrArg _ ?_
        funext reply
        change (resp.session client (seq + 1) (arrive (commands.flatMap Sent.bytes))).bind _
          = ((dispatchAll client (seq + 1) _).bind _).bind _
        refine (congrArg (Conv.bind · _) hlater).trans ?_
        dsimp only
        rw [Conv.bind_assoc, Conv.bind_assoc]
        rfl

/-! ### Which replies are clean -/

/-- The name of an unknown command as the error quotes it. -/
def unknown (args : List Bytes) : Reply :=
  .error ("ERR unknown command '" ++ fromUtf8Lossy (name args) ++ "'")

theorem asciiUpper_eq_iff {byte target : UInt8} (htarget : target.toNat < 65) :
    asciiUpper byte = target ↔ byte = target := by
  rw [asciiUpper]
  split
  · rename_i hlower
    simp only [Bool.and_eq_true, decide_eq_true_eq, UInt8.le_iff_toNat_le, UInt8.reduceToNat] at hlower
    have hupper : (byte - 32).toNat = byte.toNat - 32 :=
      UInt8.toNat_sub_of_le _ _ (UInt8.le_iff_toNat_le.mpr (by simp; omega))
    refine iff_of_false ?_ ?_
    · rintro rfl
      omega
    · rintro rfl
      omega
  · rfl

theorem crlf_infix_name (args : List Bytes) :
    crlf <:+: name args ↔ crlf <:+: args.headD [] := by
  rw [name]
  generalize args.headD [] = text
  induction text with
  | nil => rfl
  | cons byte text ih =>
      have hhead : (text.map asciiUpper).head? = some 10 ↔ text.head? = some 10 := by
        cases text with
        | nil => rfl
        | cons other text =>
            simp only [List.map_cons, List.head?_cons, Option.some.injEq]
            exact asciiUpper_eq_iff (by decide)
      rw [crlf] at ih
      rw [List.map_cons, crlf, List.infix_cons_iff, List.infix_cons_iff, pair_prefix_iff,
        pair_prefix_iff, ih, hhead, eq_comm, asciiUpper_eq_iff (by decide), eq_comm]

theorem unknown_clean_iff (args : List Bytes) :
    (unknown args).Clean ↔ ¬ crlf <:+: args.headD [] := by
  have hbytes : asBytes ("ERR unknown command '" ++ fromUtf8Lossy (name args) ++ "'")
      = asBytes "ERR unknown command '" ++ (lossyBytes (name args) ++ asBytes "'") := by
    rw [asBytes_append, asBytes_append, List.append_assoc]
    rfl
  rw [unknown, Reply.Clean, hbytes, crlf, pair_infix_append_left (by decide),
    pair_infix_append_right (by decide), pair_infix_lossyBytes (by decide) (by decide)]
  exact not_congr (crlf_infix_name args)

theorem clean_int (value : Int64) : (Reply.int value).Clean := by
  rw [Reply.Clean]
  trivial

theorem clean_bulk (value : Option Bytes) : (Reply.bulk value).Clean := by
  rw [Reply.Clean]
  trivial

theorem clean_simple {text : String} (htext : ¬ crlf <:+: asBytes text) :
    (Reply.simple text).Clean := by
  rwa [Reply.Clean]

theorem clean_error {text : String} (htext : ¬ crlf <:+: asBytes text) :
    (Reply.error text).Clean := by
  rwa [Reply.Clean]

theorem dispatch_gives {args : List Bytes} (hname : ¬ crlf <:+: args.headD []) (client : UInt32)
    (seq : UInt64) : (dispatch args client seq).Gives Reply.Clean := by
  have hok : Reply.ok.Clean := clean_simple (by decide)
  have hpong : Reply.pong.Clean := clean_simple (by decide)
  have hunavailable : unavailable.Clean := clean_error (by decide +kernel)
  have hinteger : (Reply.error "ERR value is not an integer or out of range").Clean :=
    clean_error (by decide +kernel)
  have hreset : (Reply.simple "RESET").Clean := clean_simple (by decide)
  have hempty : (Reply.array []).Clean := by
    rw [Reply.Clean, Reply.AllClean]
    trivial
  have hunknown := (unknown_clean_iff args).mpr hname
  rw [dispatch]
  refine Conv.gives_ite (fun _ => ?ping) fun _ => Conv.gives_ite (fun _ => ?set) fun _ =>
    Conv.gives_ite (fun _ => ?get) fun _ => Conv.gives_ite (fun _ => ?incr) fun _ =>
    Conv.gives_ite (fun _ => ?del) fun _ => Conv.gives_ite (fun _ => ?dbsize) fun _ =>
    Conv.gives_ite (fun _ => hempty) fun _ => Conv.gives_ite (fun _ => hok) fun _ =>
    Conv.gives_ite (fun _ => hreset) fun _ => Conv.gives_ite (fun _ => clean_bulk _) fun _ => hunknown
  case ping => exact Conv.gives_ite (fun _ => clean_bulk _) fun _ => hpong
  case set =>
    intro answer
    cases answer with
    | none => exact hunavailable
    | some out => exact hok
  case get =>
    rintro (_ | _ | _ | _ | _) <;> exact clean_bulk _
  case incr =>
    split
    · exact hinteger
    · rintro (_ | _ | (_ | value) | _ | _)
      case some.value.some => exact clean_int value
      all_goals exact hunavailable
  case del => exact (Conv.gives_of_forall (fun _ => trivial) _).bind fun count _ => clean_int count
  case dbsize => exact fun count => clean_int _

theorem dispatch_unknown {args : List Bytes} (hname : crlf <:+: args.headD []) (client : UInt32)
    (seq : UInt64) : dispatch args client seq = .ret (unknown args) := by
  have hother : ∀ known : String, 13 ∉ asBytes known →
      (args.headD []).map asciiUpper ≠ asBytes known := by
    intro known hknown heq
    have hpair : crlf <:+: asBytes known := heq ▸ (crlf_infix_name args).mpr hname
    exact hknown (hpair.subset List.mem_cons_self)
  have hincr : ¬ isIncr ((args.headD []).map asciiUpper) = true := by
    simp only [isIncr, Bool.or_eq_true, decide_eq_true_eq, not_or]
    exact ⟨⟨⟨hother "INCR" (by decide), hother "DECR" (by decide)⟩, hother "INCRBY" (by decide)⟩,
      hother "DECRBY" (by decide)⟩
  rw [dispatch, if_neg (hother "PING" (by decide)), if_neg fun hset => hother "SET" (by decide) hset.1,
    if_neg fun hget => hother "GET" (by decide) hget.1, if_neg fun hboth => hincr hboth.1,
    if_neg fun hdel => hother "DEL" (by decide) hdel.1, if_neg (hother "DBSIZE" (by decide)),
    if_neg (not_or.mpr ⟨hother "COMMAND" (by decide), hother "CONFIG" (by decide)⟩),
    if_neg (not_or.mpr ⟨hother "SELECT" (by decide), not_or.mpr ⟨hother "FLUSHALL" (by decide),
      not_or.mpr ⟨hother "FLUSHDB" (by decide), hother "CLIENT" (by decide)⟩⟩⟩),
    if_neg (hother "RESET" (by decide)), if_neg (hother "INFO" (by decide))]
  rfl

section Against

variable {σ : Type} {answer : σ → Op → σ × Option Output} {count : σ → Option Nat} {state : σ}

theorem length_dispatchAll (client : UInt32) (seq : UInt64) (commands : List (List Bytes)) :
    ((dispatchAll client seq commands).against answer count state).2.length = commands.length := by
  refine Conv.Gives.against (?_ : (dispatchAll client seq commands).Gives fun replies =>
    replies.length = commands.length)
  induction commands generalizing seq with
  | nil => exact rfl
  | cons args commands ih =>
      refine (Conv.gives_of_forall (fun _ => trivial) _).bind fun reply _ => ?_
      refine (ih (seq + 1)).bind fun replies hreplies => ?_
      exact congrArg (· + 1) hreplies

theorem dispatchAll_clean (client : UInt32) (seq : UInt64) {commands : List (List Bytes)}
    (hnames : ∀ args ∈ commands, ¬ crlf <:+: args.headD []) :
    ∀ reply ∈ ((dispatchAll client seq commands).against answer count state).2, reply.Clean := by
  refine Conv.Gives.against (?_ : (dispatchAll client seq commands).Gives fun replies =>
    ∀ reply ∈ replies, reply.Clean)
  induction commands generalizing seq with
  | nil => exact (nofun : ∀ reply ∈ ([] : List Reply), reply.Clean)
  | cons args commands ih =>
      refine (dispatch_gives (hnames args List.mem_cons_self) client (seq + 1)).bind
        fun reply hreply => ?_
      refine (ih (seq + 1) fun other hmem => hnames other (List.mem_cons_of_mem args hmem)).bind
        fun replies hreplies => ?_
      exact (List.forall_mem_cons.mpr ⟨hreply, hreplies⟩ :
        ∀ other ∈ reply :: replies, other.Clean)

theorem unknown_mem_dispatchAll (client : UInt32) (seq : UInt64) {commands : List (List Bytes)}
    {args : List Bytes} (hargs : args ∈ commands) (hname : crlf <:+: args.headD []) :
    unknown args ∈ ((dispatchAll client seq commands).against answer count state).2 := by
  induction commands generalizing seq state with
  | nil => cases hargs
  | cons first commands ih =>
      have hreply := @Conv.exists_against_bind Reply (List Reply) σ answer count state
        (dispatch first client (seq + 1)) fun reply =>
          (dispatchAll client (seq + 1) commands).bind fun replies => .ret (reply :: replies)
      obtain ⟨later, hlater⟩ := hreply
      change unknown args ∈ (Conv.against answer count ((dispatch first client (seq + 1)).bind
        fun reply => (dispatchAll client (seq + 1) commands).bind fun replies =>
          .ret (reply :: replies)) state).2
      obtain ⟨last, hlast⟩ := @Conv.exists_against_bind (List Reply) (List Reply) σ answer count later
        (dispatchAll client (seq + 1) commands) fun replies =>
          .ret (((dispatch first client (seq + 1)).against answer count state).2 :: replies)
      rw [hlater, hlast]
      obtain rfl | hargs := List.mem_cons.mp hargs
      · rw [dispatch_unknown hname]
        exact List.mem_cons_self
      · exact List.mem_cons_of_mem _ (ih (seq + 1) hargs)

end Against

end Resp

open Resp in
/-- **A client reads one value for each command, in their order and with nothing left over, exactly
if every command can be read and no name has a CR LF in it.** -/
theorem one_value_per_command_iff {σ : Type} (answer : σ → Op → σ × Option Output)
    (count : σ → Option Nat) (state : σ) (client : UInt32) (commands : List Resp.Sent)
    (hquit : ∀ sent ∈ commands, Resp.name sent.args ≠ asBytes "QUIT") :
    let output :=
      ((resp.session client resp.init (arrive (commands.flatMap Sent.bytes))).against answer count state).2
    let replies := ((dispatchAll client 0 (commands.map Sent.args)).against answer count state).2
    (Resp2.decode output = some (replies.map Reply.value) ∧ replies.length = commands.length)
      ↔ ∀ sent ∈ commands, Fits sent.args ∧ ¬ Resp2.crlf <:+: sent.args.headD [] := by
  have hlength := @length_dispatchAll σ answer count state client 0
  obtain ⟨later, hsession⟩ := @Conv.exists_against_bind (List Reply) Bytes σ answer count state
    (dispatchAll client 0 ((commands.map Sent.args).takeWhile fun args => Fits args))
    fun replies => .ret (replies.flatMap Reply.toBytes)
  have houtput : ((resp.session client resp.init (arrive (commands.flatMap Sent.bytes))).against
      answer count state).2 = ((dispatchAll client 0 ((commands.map Sent.args).takeWhile
        fun args => Fits args)).against answer count state).2.flatMap Reply.toBytes := by
    rw [show resp.init = (0 : UInt64) from rfl, session_stream client 0 commands hquit]
    exact hsession
  -- as far as names are clean, the client reads back what was sent
  have hdecode : ∀ others : List (List Bytes), (∀ args ∈ others, ¬ Resp2.crlf <:+: args.headD []) →
      Resp2.decode (((dispatchAll client 0 others).against answer count state).2.flatMap Reply.toBytes)
        = some (((dispatchAll client 0 others).against answer count state).2.map Reply.value) := by
    intro others hothers
    exact Resp2.decode_flatMap (fun reply _ => reply.toBytes_ne_nil) fun reply hreply depth =>
      reply.toBytes_exact (dispatchAll_clean client 0 hothers reply hreply)
  dsimp only
  rw [houtput]
  constructor
  · rintro ⟨hvalues, -⟩
    have hnames : ∀ args ∈ commands.map Sent.args, ¬ Resp2.crlf <:+: args.headD [] := by
      intro args hargs hname
      have hmem : (unknown args).value ∈ ((dispatchAll client 0 (commands.map Sent.args)).against
          answer count state).2.map Reply.value :=
        List.mem_map_of_mem (unknown_mem_dispatchAll client 0 hargs hname)
      rw [unknown, Reply.value] at hmem
      refine absurd hname ((unknown_clean_iff args).mp ?_)
      rw [unknown, Reply.Clean]
      exact Resp2.not_infix_of_decodeWith hvalues hmem
    have hshort := hdecode ((commands.map Sent.args).takeWhile fun args => Fits args)
      fun args hargs => hnames args ((List.takeWhile_sublist _).subset hargs)
    have hall : (commands.map Sent.args).takeWhile (fun args => Fits args) = commands.map Sent.args := by
      refine (List.takeWhile_sublist _).eq_of_length ?_
      have hsame := congrArg List.length (Option.some.inj (hshort.symm.trans hvalues))
      rwa [List.length_map, List.length_map, hlength, hlength] at hsame
    intro sent hsent
    have hmem : sent.args ∈ commands.map Sent.args := List.mem_map_of_mem hsent
    refine ⟨?_, hnames _ hmem⟩
    rw [← hall] at hmem
    simpa using List.mem_takeWhile_imp hmem
  · intro hsent
    have hall : (commands.map Sent.args).takeWhile (fun args => Fits args) = commands.map Sent.args := by
      rw [List.takeWhile_eq_self_iff]
      intro args hargs
      obtain ⟨sent, hmem, rfl⟩ := List.mem_map.mp hargs
      exact decide_eq_true (hsent sent hmem).1
    rw [hall, hlength, List.length_map]
    refine ⟨hdecode _ fun args hargs => ?_, rfl⟩
    obtain ⟨sent, hmem, rfl⟩ := List.mem_map.mp hargs
    exact (hsent sent hmem).2

namespace Resp

/-- A command of one argument, in the array form. -/
def single (size arg : Bytes) (hsize : Decimal size arg.length) : Sent where
  count := asBytes "1"
  bulks := [{ size, arg }]
  count_eq := ⟨by decide, by decide, rfl⟩
  sizes bulk hbulk := by
    obtain rfl := List.mem_singleton.mp hbulk
    exact hsize
  nonempty := by simp

/-- A ping and a name nobody knows. -/
def pingThenNope : List Sent :=
  [single (asBytes "4") (asBytes "PING") ⟨by decide, by decide, rfl⟩,
    single (asBytes "04") (asBytes "NOPE") ⟨by decide, by decide, rfl⟩]

/-- A name that carries a reply of its own. -/
def splitName : List Sent :=
  [single (asBytes "5") (asBytes "A\r\n+B") ⟨by decide, by decide, rfl⟩]

end Resp

open Resp in
theorem one_value_per_command_pingThenNope :
    let answer := fun (_ : Unit) (_ : Op) => ((), none)
    let output := ((resp.session 7 resp.init (arrive (pingThenNope.flatMap Sent.bytes))).against answer
      (fun _ => none) ()).2
    output = asBytes "+PONG\r\n-ERR unknown command 'NOPE'\r\n"
      ∧ ∃ replies : List Reply, Resp2.decode output = some (replies.map Reply.value)
        ∧ replies.length = pingThenNope.length := by
  refine ⟨by decide +kernel, _, (one_value_per_command_iff (fun _ _ => ((), none)) (fun _ => none) () 7
    pingThenNope ?_).mpr ?_⟩
  · decide
  · decide +kernel

open Resp in
/-- The one command is answered with two values. -/
theorem split_name_two_values :
    let answer := fun (_ : Unit) (_ : Op) => ((), none)
    let output := ((resp.session 7 resp.init (arrive (splitName.flatMap Sent.bytes))).against answer
      (fun _ => none) ()).2
    (∀ sent ∈ splitName, name sent.args ≠ asBytes "QUIT") ∧ splitName.length = 1
      ∧ output = asBytes "-ERR unknown command 'A\r\n+B'\r\n"
      ∧ (Resp2.decode output).map List.length = some 2 :=
  ⟨by decide, rfl, by decide +kernel, by decide +kernel⟩

end OneBarrier
