import OneBarrier.Rest
import OneBarrier.Proof.Partial
import OneBarrier.Proof.Oracle
import Mathlib.Data.Bool.AllAny

/-!
# The HTTP front-end and the REST map

Every request takes its own bytes off the connection and no others. As long as requests are plain,
the front-end answers what the documented map answers; the number of `?by=N` is never looked at.
-/

namespace OneBarrier.Rest

open Wire Input Utf8 Text Decimal Http

/-! ### Reading a request -/

/-- A key that is a text is the bytes of that text. -/
theorem IsText.asBytes_eq {bytes : Bytes} (htext : IsText bytes) :
    asBytes (fromUtf8Lossy bytes) = bytes := htext

theorem isText_asBytes (text : String) : IsText (asBytes text) := by
  rw [IsText, lossyBytes, fromUtf8Lossy_asBytes]

/-- The path as text. -/
def Route.chars (route : Route) : List Char :=
  match route with
  | .get _ | .put _ | .delete _ => '/' :: route.text.toList
  | .incr _ none => "/incr/".toList ++ route.text.toList
  | .incr _ (some amount) =>
      "/incr/".toList ++ route.text.toList ++ ("?by=".toList ++ (toString amount).toList)

theorem path_chars {route : Route} (htext : IsText route.key) :
    route.path = asBytes (String.ofList route.chars) := by
  have hkey : asBytes route.text = route.key := htext
  cases route with
  | get key | put key | delete key =>
    have hchars : String.ofList ('/' :: (fromUtf8Lossy key).toList) = "/" ++ fromUtf8Lossy key := by
      rw [← List.singleton_append, String.ofList_append, String.ofList_toList]
    exact (congrArg (asBytes "/" ++ ·) hkey.symm).trans
      ((asBytes_append _ _).symm.trans (congrArg asBytes hchars.symm))
  | incr key amount =>
    have hfront : String.ofList ("/incr/".toList ++ (fromUtf8Lossy key).toList)
        = "/incr/" ++ fromUtf8Lossy key := by
      rw [String.ofList_append, String.ofList_toList, String.ofList_toList]
    cases amount with
    | none =>
      exact (congrArg (asBytes "/incr/" ++ ·) hkey.symm).trans
        ((asBytes_append _ _).symm.trans (congrArg asBytes hfront.symm))
    | some amount =>
      have hchars : String.ofList ("/incr/".toList ++ (fromUtf8Lossy key).toList
          ++ ("?by=".toList ++ (toString amount).toList))
          = "/incr/" ++ fromUtf8Lossy key ++ ("?by=" ++ toString amount) := by
        rw [String.ofList_append, hfront, String.ofList_append, String.ofList_toList,
          String.ofList_toList]
      refine Eq.trans ?_ (congrArg asBytes hchars.symm)
      rw [asBytes_append _ ("?by=" ++ toString amount), asBytes_append "/incr/"]
      exact congrArg (asBytes "/incr/" ++ · ++ asBytes ("?by=" ++ toString amount)) hkey.symm

theorem toList_path {route : Route} (htext : IsText route.key) :
    (fromUtf8Lossy route.path).toList = route.chars := by
  rw [path_chars htext, fromUtf8Lossy_asBytes, String.toList_ofList]

/-- The request line as text. -/
def Route.words (route : Route) : List Char :=
  route.method ++ ' ' :: (route.chars ++ ' ' :: "HTTP/1.1\r".toList)

theorem line_words {route : Route} (htext : IsText route.key) :
    route.line = asBytes (String.ofList route.words) := by
  have hversion : String.ofList (' ' :: "HTTP/1.1\r".toList) = " HTTP/1.1\r" := by decide
  have hblank : String.ofList [' '] = " " := by decide
  rw [Route.line, Route.words, path_chars htext, ← List.singleton_append (x := ' '),
    String.ofList_append, String.ofList_append, String.ofList_append, hversion, hblank, asBytes_append,
    asBytes_append, asBytes_append, List.append_assoc, List.append_assoc]

theorem text_asBytes (line : List Char) : text (asBytes (String.ofList line) ++ [10]) = line ++ ['\n'] := by
  have hbytes : asBytes (String.ofList line) ++ [10] = asBytes (String.ofList (line ++ ['\n'])) := by
    rw [String.ofList_append, asBytes_append]
    rfl
  rw [hbytes, text, fromUtf8Lossy_asBytes, String.toList_ofList]

theorem isWhitespace_newline {char : Char} (hchar : isWhitespace char = false) : char ≠ '\n' := by
  rintro rfl
  exact absurd hchar (by decide)

/-- The method is a word. -/
theorem method_word (route : Route) :
    route.method ≠ [] ∧ ∀ char ∈ route.method, isWhitespace char = false := by
  cases route <;> exact ⟨List.cons_ne_nil _ _, List.all_iff_forall_prop.mp rfl⟩

variable (sent : Sent)

variable {sent} in
theorem chars_word (htext : IsText sent.route.key) :
    sent.route.chars ≠ [] ∧ ∀ char ∈ sent.route.chars, isWhitespace char = false := by
  refine ⟨?_, ?_⟩
  · cases sent.route with
    | incr key amount => cases amount <;> exact List.cons_ne_nil _ _
    | _ => exact List.cons_ne_nil _ _
  · rw [← toList_path htext]
    exact sent.path_words

variable {sent} in
theorem line_notMem (htext : IsText sent.route.key) : 10 ∉ sent.route.line := by
  rw [line_words htext]
  refine notMem_asBytes (by decide) ?_
  have hmethod : '\n' ∉ sent.route.method := fun hmem =>
    isWhitespace_newline ((method_word sent.route).2 '\n' hmem) rfl
  have hpath : '\n' ∉ sent.route.chars := fun hmem =>
    isWhitespace_newline ((chars_word htext).2 '\n' hmem) rfl
  have hversion : '\n' ∉ "HTTP/1.1\r".toList := by decide
  change '\n' ∉ sent.route.words
  simp only [Route.words, List.mem_append, List.mem_cons, not_or]
  exact ⟨hmethod, by decide, hpath, by decide, hversion⟩

variable {sent} in
theorem field_notMem {field : Field} (hfield : field ∈ sent.fields) :
    10 ∉ asBytes (String.ofList field.line) := by
  refine notMem_asBytes (by decide) ?_
  have hname : '\n' ∉ field.name := fun hmem =>
    isWhitespace_newline ((sent.names field hfield).2 '\n' hmem).2 rfl
  change '\n' ∉ field.line
  simp only [Field.line, List.mem_append, List.mem_cons, List.not_mem_nil, or_false, not_or]
  exact ⟨hname, by decide, sent.values field hfield, by decide⟩

/-- A header line without what is blank at its end. -/
theorem trimEnd_field (field : Field) :
    trimEnd (text (asBytes (String.ofList field.line) ++ [10]))
      = field.name ++ ':' :: trimEnd field.value := by
  have hblank : ∀ char ∈ ['\r', '\n'], isWhitespace char = true :=
    List.all_iff_forall_prop.mp (by decide)
  have hline : field.line ++ ['\n'] = field.name ++ ':' :: (field.value ++ ['\r', '\n']) := by
    simp [Field.line]
  rw [text_asBytes, hline, trimEnd_append_cons _ (by decide), trimEnd_append hblank]

/-- The header lines of a request. -/
def headerLines : List Bytes := sent.fields.map fun field => asBytes (String.ofList field.line)

theorem headers_formed : ∀ header ∈ headerLines sent,
    10 ∉ header ∧ trimEnd (text (header ++ [10])) ≠ [] := by
  intro header hheader
  obtain ⟨field, hfield, rfl⟩ := List.mem_map.mp hheader
  refine ⟨field_notMem hfield, ?_⟩
  rw [trimEnd_field]
  simp

/-- The op behind a route. -/
def Route.kind (route : Route) (body : Bytes) : OpKind :=
  match route with
  | .get _ => .get route.text
  | .put _ => .set route.text body
  | .incr .. => .incr route.text 1
  | .delete _ => .del route.text

/-- What is made of the service's answer. -/
def Route.reply : Route → Option Output → Nat × Bytes
  | .get _, some (.bytes (some value)) => (200, value)
  | .get _, _ => (404, asBytes "not found")
  | .put _, some _ => (200, asBytes "OK")
  | .put _, none => (503, asBytes "unavailable")
  | .incr .., some (.value (some value)) => (200, asBytes (showI64 value))
  | .incr .., _ => (503, asBytes "unavailable")
  | .delete _, some (.value (some value)) => (200, asBytes (showI64 value))
  | .delete _, _ => (200, asBytes "0")

theorem parseI64_eq (text : List Char) :
    parseI64 text = (signed text).bind fun value =>
      if -2 ^ 63 ≤ value ∧ value < 2 ^ 63 then some (Int64.ofInt value) else none := by
  have hminus : ∀ magnitude : Nat,
      magnitude ≤ 2 ^ 63 ↔ -2 ^ 63 ≤ -(magnitude : Int) ∧ -(magnitude : Int) < 2 ^ 63 := by
    omega
  have hplus : ∀ magnitude : Nat,
      magnitude < 2 ^ 63 ↔ -2 ^ 63 ≤ Int.ofNat magnitude ∧ Int.ofNat magnitude < 2 ^ 63 := by
    intro magnitude
    rw [Int.ofNat_eq_natCast]
    omega
  fun_cases parseI64 text with
  | case1 digits =>
    rw [signed]
    cases parseDigits digits with
    | none => rfl
    | some magnitude => exact if_congr (hminus magnitude) rfl rfl
  | case2 digits =>
    rw [signed]
    cases parseDigits digits with
    | none => rfl
    | some magnitude =>
      rw [Option.bind_some, Option.map_some, Option.bind_some]
      exact if_congr (hplus magnitude) rfl rfl
  | case3 _ hnotMinus hnotPlus =>
    rw [signed]
    · cases parseDigits text with
      | none => rfl
      | some magnitude =>
        rw [Option.bind_some, Option.map_some, Option.bind_some]
        exact if_congr (hplus magnitude) rfl rfl
    · exact hnotMinus
    · exact hnotPlus

theorem asInt_eq (value : Bytes) :
    KvStore.asInt value = (integer value).bind fun value =>
      if -2 ^ 63 ≤ value ∧ value < 2 ^ 63 then some (Int64.ofInt value) else none := by
  rw [KvStore.asInt, integer]
  cases fromUtf8 value with
  | none => rfl
  | some text => exact parseI64_eq _

theorem view_insert (store : KvStore) (key : String) (value : Bytes) :
    view ⟨store.map.insert key value⟩ = Function.update (view store) key (some value) := by
  funext other
  rw [view, Std.ExtTreeMap.getElem?_insert, Function.update_apply]
  exact if_congr (Std.LawfulEqOrd.compare_eq_iff_eq.trans eq_comm) rfl rfl

theorem view_erase (store : KvStore) (key : String) :
    view ⟨store.map.erase key⟩ = Function.update (view store) key none := by
  funext other
  rw [view, Std.ExtTreeMap.getElem?_erase, Function.update_apply]
  exact if_congr (Std.LawfulEqOrd.compare_eq_iff_eq.trans eq_comm) rfl rfl

theorem of_update {store next : KvStore} {text : String} {value : Option Bytes}
    (hview : view next = Function.update (view store) text value) :
    Map.of next = Function.update (Map.of store) (asBytes text) value := by
  funext key
  rw [Map.of, hview, Function.update_apply, Function.update_apply]
  by_cases hkey : key = asBytes text
  · rw [hkey, fromUtf8Lossy_asBytes, if_pos rfl, if_pos rfl, if_pos (isText_asBytes text)]
  · rw [if_neg hkey, Map.of]
    refine ite_congr rfl (fun htext => if_neg fun hsame => hkey ?_) (fun _ => rfl)
    rw [← hsame, htext.asBytes_eq]

/-- A call of a new seq is answered by the store, and raises the client's mark to that seq. -/
theorem apply_fresh {executor : Executor} {op : Op} (tick : UInt64 → UInt64)
    (hfresh : executor.engine.highWater op.client < op.seq) :
    (executor.apply tick op).2 = some (executor.engine.state.apply op).2
      ∧ (executor.apply tick op).1.engine.state = (executor.engine.state.apply op).1
      ∧ (executor.apply tick op).1.engine.highWater op.client = op.seq := by
  obtain ⟨next, after, hdeliver, hcore⟩ := @deliver_clean_of_fresh executor.engine executor.disk
    (max (executor.clock + 1) (tick (executor.clock + 1))) op hfresh
  have happly : executor.apply tick op
      = (⟨next, after, executor.clock + 1⟩, some (executor.engine.state.apply op).2) := by
    rw [Executor.apply, hdeliver]
  rw [happly]
  refine ⟨rfl, ?_, ?_⟩
  · change next.toCore.state = _
    rw [hcore]
    exact state_apply hfresh
  · change next.toCore.highWater op.client = op.seq
    rw [hcore]
    exact (Core.highWater_applyDedup op.client hfresh).trans (if_pos rfl)

/-- The bytes of the answers. -/
def written (answers : List (Nat × Bytes)) : Bytes :=
  answers.flatMap fun answer => writeResponse answer.1 answer.2 true

/-- The executor of a new directory. -/
def fresh : Executor := { engine := Engine.create 8, disk := Disk.empty, clock := 1 }

end OneBarrier.Rest
