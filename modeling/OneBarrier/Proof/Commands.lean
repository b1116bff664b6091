import OneBarrier.Proof.Access
import OneBarrier.Proof.RespReplies
import Mathlib.Data.Finset.Card
import Mathlib.Data.Finset.Dedup

/-!
# `DEL` of several keys

The ops of a `DEL` with several keys carry one seq, so the first is taken and the others are
suppressed as its duplicates.
-/

namespace OneBarrier

open Wire Input Utf8 Text Durable Rest

variable {tick : UInt64 → UInt64} {executor : Executor} {client : UInt32} {seq : UInt64}

namespace Resp

/-! ### Deleting several keys -/

/-- Behind the first, every op is a duplicate. -/
theorem deleteAll_of_not_fresh (hcovered : ¬ executor.engine.highWater client < seq)
    (keys : List Bytes) (count : Int64) :
    ((deleteAll client seq keys count).run (Executor.apply tick) Executor.len executor).2 = count
      ∧ ((deleteAll client seq keys count).run (Executor.apply tick) Executor.len
          executor).1.engine.state = executor.engine.state := by
  induction keys generalizing executor with
  | nil => exact ⟨rfl, rfl⟩
  | cons key keys ih =>
      have hanswer : (executor.apply tick ⟨client, seq, .del (fromUtf8Lossy key)⟩).2
          = some .suppressed := by rw [Executor.answer_apply, if_neg hcovered]
      have hmark : ¬ (executor.apply tick ⟨client, seq, .del (fromUtf8Lossy key)⟩).1.engine.highWater
          client < seq := by
        rw [Executor.highWater_apply, if_neg fun hboth => hcovered hboth.1]
        exact hcovered
      have hstate : (executor.apply tick ⟨client, seq, .del (fromUtf8Lossy key)⟩).1.engine.state
          = executor.engine.state := by rw [Executor.state_apply, if_neg hcovered]
      have hrun : (deleteAll client seq (key :: keys) count).run (Executor.apply tick) Executor.len
          executor = (deleteAll client seq keys count).run (Executor.apply tick) Executor.len
            (executor.apply tick ⟨client, seq, .del (fromUtf8Lossy key)⟩).1 := by
        rw [deleteAll, Conv.run_applied, hanswer]
      obtain ⟨hcount, hsame⟩ := ih hmark
      rw [hrun]
      exact ⟨hcount, hsame.trans hstate⟩

theorem deleteAll_of_fresh (hfresh : executor.engine.highWater client < seq) (key : Bytes)
    (keys : List Bytes) :
    ((deleteAll client seq (key :: keys) 0).run (Executor.apply tick) Executor.len executor).2
        = (if (view executor.engine.state (fromUtf8Lossy key)).isSome then 1 else 0)
      ∧ view ((deleteAll client seq (key :: keys) 0).run (Executor.apply tick) Executor.len
          executor).1.engine.state
        = Function.update (view executor.engine.state) (fromUtf8Lossy key) none := by
  have hanswer : (executor.apply tick ⟨client, seq, .del (fromUtf8Lossy key)⟩).2
      = some (.value (some (if (view executor.engine.state (fromUtf8Lossy key)).isSome
          then 1 else 0))) := by
    rw [Executor.answer_apply, if_pos hfresh]
    change some (Output.value (some (if executor.engine.state.map.contains _ then 1 else 0))) = _
    rw [view, Std.ExtTreeMap.isSome_getElem?_eq_contains]
  have hmark : ¬ (executor.apply tick ⟨client, seq, .del (fromUtf8Lossy key)⟩).1.engine.highWater
      client < seq := by
    rw [Executor.highWater_apply, if_pos ⟨hfresh, rfl⟩]
    exact UInt64.lt_irrefl seq
  have hstate : (executor.apply tick ⟨client, seq, .del (fromUtf8Lossy key)⟩).1.engine.state
      = ⟨executor.engine.state.map.erase (fromUtf8Lossy key)⟩ := by
    rw [Executor.state_apply, if_pos hfresh]
    rfl
  have hrun : (deleteAll client seq (key :: keys) 0).run (Executor.apply tick) Executor.len executor
      = (deleteAll client seq keys (0 + if (view executor.engine.state (fromUtf8Lossy key)).isSome
          then 1 else 0)).run (Executor.apply tick) Executor.len
          (executor.apply tick ⟨client, seq, .del (fromUtf8Lossy key)⟩).1 := by
    rw [deleteAll, Conv.run_applied, hanswer]
  obtain ⟨hcount, hsame⟩ := @deleteAll_of_not_fresh tick _ client seq hmark keys
    (0 + if (view executor.engine.state (fromUtf8Lossy key)).isSome then 1 else 0)
  rw [hrun, hsame, hstate, view_erase]
  exact ⟨hcount.trans (Int64.zero_add _), rfl⟩

theorem serve_del {args : List Bytes} (hname : name args = asBytes "DEL") (hlong : 2 ≤ args.length) :
    serve client seq args = (deleteAll client (seq + 1) args.tail 0).bind fun count =>
      .ret { conn := seq + 1, output := (Reply.int count).toBytes } := by
  have hword : (args.headD []).map asciiUpper = asBytes "DEL" := hname
  rw [serve_of_not_quit (by rw [hname]; decide), dispatch]
  rw [hword, if_neg (by decide), if_neg fun hboth => absurd hboth.1 (by decide),
    if_neg fun hboth => absurd hboth.1 (by decide), if_neg fun hboth => absurd hboth.1 (by decide),
    if_pos ⟨rfl, hlong⟩]
  change ((deleteAll client (seq + 1) args.tail 0).bind fun count => Conv.ret (Reply.int count)).bind
    _ = _
  rw [Conv.bind_assoc]
  rfl

/-- How many of the keys the store has. -/
def present (store : KvStore) (keys : List String) : Nat :=
  (keys.toFinset.filter fun key => (view store key).isSome).card

theorem present_eq {store : KvStore} {key : String} {keys : List String}
    (habsent : ∀ other ∈ keys, other ≠ key → view store other = none) :
    present store (key :: keys) = if (view store key).isSome then 1 else 0 := by
  have honly : ∀ other, other ∈ (key :: keys).toFinset.filter (fun key => (view store key).isSome)
      ↔ other = key ∧ (view store key).isSome := by
    intro other
    rw [Finset.mem_filter, List.mem_toFinset, List.mem_cons]
    constructor
    · rintro ⟨hlisted, hsome⟩
      by_cases hother : other = key
      · exact ⟨hother, hother ▸ hsome⟩
      · rw [habsent other (hlisted.resolve_left hother) hother] at hsome
        cases hsome
    · rintro ⟨rfl, hsome⟩
      exact ⟨.inl rfl, hsome⟩
  rw [present]
  split
  · rw [Finset.card_eq_one]
    refine ⟨key, Finset.ext fun other => ?_⟩
    rw [honly, Finset.mem_singleton, and_iff_left ‹_›]
  · rw [Finset.card_eq_zero, Finset.eq_empty_iff_forall_notMem]
    exact fun other hmem => ‹¬ _› ((honly other).mp hmem).2

/-- **`DEL` of several keys removes them all, and counts them, exactly if those behind the first were
not there.** -/
theorem del_removes_iff (tick : UInt64 → UInt64) (executor : Executor) {client : UInt32}
    {seq : UInt64} (hfresh : executor.engine.highWater client < seq + 1) {word : Bytes}
    (hword : word.map asciiUpper = asBytes "DEL") (key : String) (keys : List String) :
    let before := view executor.engine.state
    let served := (serve client seq (word :: (key :: keys).map asBytes)).run (Executor.apply tick)
      Executor.len executor
    let after := view served.1.engine.state
    ((∀ listed ∈ key :: keys, after listed = none) ∧ (∀ other ∉ key :: keys, after other = before other)
        ∧ served.2.output
          = asBytes (":" ++ toString (present executor.engine.state (key :: keys)) ++ "\r\n"))
      ↔ ∀ other ∈ keys, other ≠ key → before other = none := by
  intro before served after
  obtain ⟨hcount, hafter⟩ := @deleteAll_of_fresh tick executor client (seq + 1) hfresh (asBytes key)
    (keys.map asBytes)
  rw [fromUtf8Lossy_asBytes] at hcount hafter
  have hserve : served = ((((deleteAll client (seq + 1) ((key :: keys).map asBytes) 0).run
      (Executor.apply tick) Executor.len executor).1), (⟨seq + 1, (Reply.int
        (if (before key).isSome then 1 else 0)).toBytes, false⟩ : Turn UInt64)) := by
    change (serve client seq _).run _ _ _ = _
    have hname : name (word :: (key :: keys).map asBytes) = asBytes "DEL" := hword
    rw [serve_del hname (by rw [List.map_cons, List.length_cons, List.length_cons]; omega),
      Conv.run_bind, ← hcount]
    rfl
  have hleft : after = Function.update before key none := by
    change view served.1.engine.state = _
    rw [hserve]
    exact hafter
  constructor
  · rintro ⟨hgone, -, -⟩ other hmem hother
    have hnone := hgone other (List.mem_cons_of_mem key hmem)
    rwa [hleft, Function.update_of_ne hother] at hnone
  · intro habsent
    refine ⟨fun listed hlisted => ?_, fun other hother => ?_, ?_⟩
    · rw [hleft]
      by_cases hlast : listed = key
      · rw [hlast, Function.update_self]
      · rw [Function.update_of_ne hlast]
        exact habsent listed ((List.mem_cons.mp hlisted).resolve_left hlast) hlast
    · have hne : other ≠ key := fun hsame => hother (hsame ▸ List.mem_cons_self)
      rw [hleft, Function.update_of_ne hne]
    · rw [hserve, present_eq habsent]
      change (Reply.int (if (before key).isSome then 1 else 0)).toBytes
        = asBytes (":" ++ toString (if (before key).isSome then 1 else 0) ++ "\r\n")
      cases (before key).isSome <;> rfl

/-- `DEL foo bar` on a store that has `foo` and another key: one key is removed and counted. -/
theorem del_removes_iff_first :
    let executor := fresh.applyAll id [⟨1, 1, .set "foo" [120]⟩, ⟨1, 2, .set "baz" [121]⟩]
    let served := (serve 2 0 (asBytes "del" :: ["foo", "bar"].map asBytes)).run (Executor.apply id)
      Executor.len executor
    view executor.engine.state "foo" = some [120] ∧ present executor.engine.state ["foo", "bar"] = 1
      ∧ (∀ listed ∈ ["foo", "bar"], view served.1.engine.state listed = none)
      ∧ (∀ other ∉ ["foo", "bar"],
        view served.1.engine.state other = view executor.engine.state other)
      ∧ served.2.output
        = asBytes (":" ++ toString (present executor.engine.state ["foo", "bar"]) ++ "\r\n") := by
  intro executor served
  refine ⟨by decide +kernel, by decide +kernel, ?_⟩
  exact (del_removes_iff id executor (by decide +kernel) (by decide) "foo" ["bar"]).mpr
    (by decide +kernel)

/-- A store of `foo` and `bar`. -/
def stocked : Executor :=
  fresh.applyAll id [⟨1, 1, .set "foo" [120]⟩, ⟨1, 2, .set "bar" [120]⟩]

/-- `DEL foo bar` answers one, and `bar` is still there. -/
theorem del_leaves_second :
    let served := (serve 2 0 (asBytes "DEL" :: ["foo", "bar"].map asBytes)).run (Executor.apply id)
      Executor.len stocked
    stocked.engine.highWater 2 = 0 ∧ present stocked.engine.state ["foo", "bar"] = 2
      ∧ served.2.output = asBytes ":1\r\n"
      ∧ view served.1.engine.state "bar" = some [120] := by
  decide +kernel

end Resp

end OneBarrier
