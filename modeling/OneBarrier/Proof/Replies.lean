import OneBarrier.Proof.Threads

/-!
# From a request to its reply

The ops issued for a request, with their answers, are one way through the conversation that serves
it, and the reply is where that way ends. The connection's variables follow the requests: whatever
part of them a request changes without looking at the answers is a function of the requests alone.
-/

namespace OneBarrier

namespace Conv

variable {α : Type}

/-- The conversation, given these answers to its ops, ends with this result. -/
def Ends : Conv α → List (Op × Option Output) → α → Prop
  | ret value, answers, result => answers = [] ∧ value = result
  | apply op next, answers, result =>
      ∃ answer rest, answers = (op, answer) :: rest ∧ (next answer).Ends rest result
  | len next, answers, result => ∃ count, (next count).Ends answers result

/-- The conversation, given these answers to its ops, goes on like this. -/
inductive Reaches (conv : Conv α) : List (Op × Option Output) → Conv α → Prop
  | start : Reaches conv [] conv
  | apply {answers : List (Op × Option Output)} {op : Op} {next : Option Output → Conv α}
      (answer : Option Output) (hreaches : Reaches conv answers (.apply op next)) :
      Reaches conv (answers ++ [(op, answer)]) (next answer)
  | len {answers : List (Op × Option Output)} {next : Option Nat → Conv α} (count : Option Nat)
      (hreaches : Reaches conv answers (.len next)) : Reaches conv answers (next count)

theorem Reaches.ends_append {conv later : Conv α} {answers : List (Op × Option Output)}
    (hreaches : conv.Reaches answers later) {rest : List (Op × Option Output)} {result : α}
    (hends : later.Ends rest result) : conv.Ends (answers ++ rest) result := by
  induction hreaches generalizing rest with
  | start => exact hends
  | apply answer _ ih =>
      rw [List.append_assoc]
      exact ih ⟨answer, rest, rfl, hends⟩
  | len count _ ih => exact ih ⟨count, hends⟩

theorem Reaches.ends {conv : Conv α} {answers : List (Op × Option Output)} {result : α}
    (hreaches : conv.Reaches answers (.ret result)) : conv.Ends answers result := by
  have hends := hreaches.ends_append (⟨rfl, rfl⟩ : (ret result).Ends [] result)
  rwa [List.append_nil] at hends

theorem reaches_ret {value : α} {answers : List (Op × Option Output)} {later : Conv α}
    (hreaches : (ret value).Reaches answers later) : answers = [] ∧ later = .ret value := by
  induction hreaches with
  | start => exact ⟨rfl, rfl⟩
  | apply answer _ ih => cases ih.2
  | len count _ ih => cases ih.2

/-- A conversation that starts with a call is still there, or goes on from the answer to it. -/
theorem reaches_apply {op : Op} {next : Option Output → Conv α}
    {answers : List (Op × Option Output)} {later : Conv α}
    (hreaches : (apply op next).Reaches answers later) :
    answers = [] ∧ later = apply op next
      ∨ ∃ answer rest, answers = (op, answer) :: rest ∧ (next answer).Reaches rest later := by
  induction hreaches with
  | start => exact .inl ⟨rfl, rfl⟩
  | apply answer _ ih =>
      right
      rcases ih with ⟨rfl, hsame⟩ | ⟨first, rest, rfl, hrest⟩
      · cases hsame
        exact ⟨answer, [], rfl, .start⟩
      · exact ⟨first, rest ++ [(_, answer)], rfl, hrest.apply answer⟩
  | len count _ ih =>
      right
      rcases ih with ⟨-, hsame⟩ | ⟨first, rest, rfl, hrest⟩
      · cases hsame
      · exact ⟨first, rest, rfl, hrest.len count⟩

end Conv

/-- What is left of serving the request, as long as the thread is at it. -/
def Phase.conv {frontend : Frontend} : Phase frontend → Option (Conv (Turn frontend.Conn))
  | .closed | .idle => none
  | .serving conv => some conv
  | .applying op next _ => some (.apply op next)
  | .counting next _ => some (.len next)

section Follows

variable {frontend : Frontend} {γ : Type} {view : frontend.Conn → γ}
  {line : γ → frontend.Request → γ}

/-- What a thread is doing is part of serving its request, and its connection's variables are those
its earlier requests led to. -/
structure Thread.Follows (view : frontend.Conn → γ) (line : γ → frontend.Request → γ)
    (thread : Thread frontend) : Prop where
  conn : thread.phase ≠ .closed →
    view thread.conn = thread.earlier.foldl line (view frontend.init)
  reaches : ∀ conv ∈ thread.phase.conv, ∃ request, thread.request = some request
    ∧ (frontend.serve thread.client thread.conn request).Reaches thread.answers conv

variable {mayFail maySuppress : Op → Prop}

theorem Thread.Follows.conn_of_conv {thread : Thread frontend} (hfollows : thread.Follows view line)
    {conv : Conv (Turn frontend.Conn)} (hconv : thread.phase.conv = some conv) :
    view thread.conn = thread.earlier.foldl line (view frontend.init) := by
  refine hfollows.conn fun hclosed => ?_
  rw [hclosed] at hconv
  cases hconv

theorem Thread.Move.follows
    (hserve : ∀ client conn request answers turn,
      (frontend.serve client conn request).Ends answers turn →
        view turn.conn = line (view conn) request)
    {thread next : Thread frontend} (hmove : Thread.Move mayFail maySuppress thread next)
    (hfollows : thread.Follows view line) : next.Follows view line := by
  cases hmove with
  | accept client => exact ⟨fun _ => rfl, fun _ hconv => by cases hconv⟩
  | close => exact ⟨fun hopen => absurd rfl hopen, fun _ hconv => by cases hconv⟩
  | request request hphase =>
      refine ⟨fun _ => hfollows.conn (by simp [hphase]), ?_⟩
      rintro conv ⟨⟩
      exact ⟨request, rfl, .start⟩
  | call call hphase =>
      refine ⟨fun _ => hfollows.conn (by simp [hphase]), ?_⟩
      rintro conv ⟨⟩
      exact hfollows.reaches _ (by rw [hphase]; rfl)
  | count call hphase =>
      refine ⟨fun _ => hfollows.conn (by simp [hphase]), ?_⟩
      rintro conv ⟨⟩
      exact hfollows.reaches _ (by rw [hphase]; rfl)
  | @fail op after hphase hfail =>
      have hconv : thread.phase.conv = some (.apply op after) := by
        rcases hphase with hphase | hphase
        · rw [hphase]
          rfl
        · rw [hphase]
          rfl
      refine ⟨fun _ => hfollows.conn_of_conv hconv, ?_⟩
      rintro conv ⟨⟩
      obtain ⟨request, hrequest, hreaches⟩ := hfollows.reaches _ hconv
      exact ⟨request, hrequest, hreaches.apply none⟩
  | log hphase => exact ⟨hfollows.conn, hfollows.reaches⟩
  | answer out hphase hlogged hout =>
      refine ⟨fun _ => hfollows.conn (by simp [hphase]), ?_⟩
      rintro conv ⟨⟩
      exact hfollows.reaches _ (by rw [hphase]; rfl)
  | suppress hphase hsuppress =>
      refine ⟨fun _ => hfollows.conn (by simp [hphase]), ?_⟩
      rintro conv ⟨⟩
      exact hfollows.reaches _ (by rw [hphase]; rfl)
  | answerLen count hphase =>
      refine ⟨fun _ => hfollows.conn (by simp [hphase]), ?_⟩
      rintro conv ⟨⟩
      exact hfollows.reaches _ (by rw [hphase]; rfl)
  | @receive op after out hphase =>
      have hconv : thread.phase.conv = some (.apply op after) := by
        rw [hphase]
        rfl
      refine ⟨fun _ => hfollows.conn_of_conv hconv, ?_⟩
      rintro conv ⟨⟩
      obtain ⟨request, hrequest, hreaches⟩ := hfollows.reaches _ hconv
      exact ⟨request, hrequest, hreaches.apply (some out)⟩
  | @receiveLen after count hphase =>
      have hconv : thread.phase.conv = some (.len after) := by
        rcases hphase with hphase | ⟨answer, hphase⟩
        · rw [hphase]
          rfl
        · rw [hphase]
          rfl
      refine ⟨fun _ => hfollows.conn_of_conv hconv, ?_⟩
      rintro conv ⟨⟩
      obtain ⟨request, hrequest, hreaches⟩ := hfollows.reaches _ hconv
      exact ⟨request, hrequest, hreaches.len count⟩
  | @reply turn hphase =>
      have hconv : thread.phase.conv = some (.ret turn) := by
        rw [hphase]
        rfl
      obtain ⟨request, hrequest, hreaches⟩ := hfollows.reaches _ hconv
      refine ⟨fun _ => ?_, ?_⟩
      · have hturn := hserve _ _ _ _ _ hreaches.ends
        rw [hfollows.conn_of_conv hconv] at hturn
        change view turn.conn = (thread.earlier ++ thread.request.toList).foldl line _
        rw [hrequest, List.foldl_append]
        exact hturn
      · intro conv hidle
        cases hclose : turn.close <;> simp [hclose, Phase.conv] at hidle

/-- Every reply is the end of serving its request, and the variables it was served with are those the
earlier requests led to. -/
theorem World.replies_follow
    (hserve : ∀ client conn request answers turn,
      (frontend.serve client conn request).Ends answers turn →
        view turn.conn = line (view conn) request)
    (interval : UInt64) (events : List (WorldEvent frontend)) :
    ∀ served ∈ (Run.run World.step (World.start interval : World frontend) events).replies,
      view served.conn = served.earlier.foldl line (view frontend.init)
        ∧ ∃ request turn, served.request = some request ∧ served.output = turn.output
          ∧ (frontend.serve served.client served.conn request).Ends served.answers turn := by
  have hattends : Run.Guarded World.step (World.Attends (fun _ => True) fun _ => True)
      (World.start interval : World frontend) events :=
    Run.guarded_of_forall World.attends_of_true _ events
  refine World.invariant_threads (fun thread hclosed => ?_)
    (fun thread next hmove => hmove.follows hserve) (fun thread turn hfollows hphase => ?_) hattends
  · refine ⟨fun hopen => absurd hclosed hopen, ?_⟩
    rw [hclosed]
    rintro conv ⟨⟩
  · have hconv : thread.phase.conv = some (.ret turn) := by
      rw [hphase]
      rfl
    obtain ⟨request, hrequest, hreaches⟩ := hfollows.reaches _ hconv
    exact ⟨hfollows.conn_of_conv hconv, request, turn, hrequest, rfl, hreaches.ends⟩

end Follows

end OneBarrier
