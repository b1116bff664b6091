import OneBarrier.Proof.OnePipe
import Mathlib.Algebra.BigOperators.Group.Finset.Basic
import Mathlib.Algebra.Order.BigOperators.Group.Finset
import Mathlib.Data.Finset.Card
import Mathlib.Data.Fintype.Basic

/-!
# The barrier does not hold messages back for ever

Every step uses something up: a send or a tick takes a unit off the clock that is left, an arrival and a
delivery move a message on, a learned barrier comes closer to the bound. A send also puts one message
on its way to every receiver, so a unit of clock weighs as much as the two steps that each receiver
then has to take. What is left of a run therefore has a bound, and a state without a next step has
nothing left to deliver.
-/

namespace OneBarrier.OnePipe

variable {Proc : Type} [LinearOrder Proc]

/-- What `r` has still to receive. -/
def missing (state : State Proc) (r : Proc) : Finset (Msg Proc) :=
  state.sent.filter fun m => m ∉ state.buffer r ∧ m ∉ state.delivered r

/-- What holds of every reachable state besides the order: the clocks and stamps stay in their
ranges, and only what was sent is delivered. -/
structure Ranged (maxTs : Nat) (state : State Proc) : Prop where
  started : ∀ p, 1 ≤ state.clock p
  clocks : ∀ p, state.clock p ≤ maxTs + 1
  stamps : ∀ m ∈ state.sent, 1 ≤ m.ts ∧ m.ts ≤ maxTs
  fromSent : ∀ r, ∀ m ∈ state.delivered r, m ∈ state.sent

omit [LinearOrder Proc] in
theorem ranged_init (maxTs : Nat) : Ranged maxTs (init : State Proc) where
  started _ := Nat.le_refl 1
  clocks _ := Nat.le_add_left 1 maxTs
  stamps m hm := absurd hm (Finset.notMem_empty m)
  fromSent _ _ hm := absurd hm List.not_mem_nil

section Step

variable {state next : State Proc} {maxTs : Nat}

theorem Ranged.clock_update (hranged : Ranged maxTs state) {p : Proc} (hclock : state.clock p ≤ maxTs)
    (s : Proc) : Function.update state.clock p (state.clock p + 1) s ≤ maxTs + 1 := by
  by_cases hs : s = p
  · rw [hs, Function.update_self]
    exact Nat.succ_le_succ hclock
  · rw [Function.update_of_ne hs]
    exact hranged.clocks s

/-- The step lemma. -/
theorem Ranged.step (hranged : Ranged maxTs state) (hinv : Inv state) (hstep : Next maxTs state next) :
    Ranged maxTs next := by
  rcases hstep with ⟨p, hclock, rfl⟩ | ⟨p, hclock, rfl⟩ | ⟨r, m, -, -, -, -, rfl⟩ | ⟨r, s, -, -, rfl⟩
    | ⟨r, m, hbuffer, -, -, rfl⟩
  · refine ⟨fun s => (hranged.started s).trans (clock_le_update state p s),
      hranged.clock_update hclock, ?_, ?_⟩
    · intro m hm
      rcases Finset.mem_insert.mp hm with rfl | hold
      · exact ⟨hranged.started p, hclock⟩
      · exact hranged.stamps m hold
    · exact fun r m hm => Finset.mem_insert_of_mem (hranged.fromSent r m hm)
  · exact { hranged with
      started := fun s => (hranged.started s).trans (clock_le_update state p s)
      clocks := hranged.clock_update hclock }
  · exact { hranged with }
  · exact { hranged with }
  · refine { hranged with fromSent := ?_ }
    intro other n hn
    dsimp only at hn
    by_cases hother : other = r
    · subst hother
      rw [Function.update_self, List.mem_append, List.mem_singleton] at hn
      rcases hn with hold | rfl
      · exact hranged.fromSent _ n hold
      · exact hinv.fromSent _ n hbuffer
    · rw [Function.update_of_ne hother] at hn
      exact hranged.fromSent other n hn

theorem ranged_of_reachable (hreachable : Reachable maxTs state) : Ranged maxTs state := by
  induction hreachable with
  | refl => exact ranged_init maxTs
  | tail hreachable hstep ih => exact ih.step (inv_of_reachable hreachable) hstep

/-- Nothing that was sent is taken back, and a receiver only appends to what it has delivered. -/
theorem next_extends (hstep : Next maxTs state next) :
    state.sent ⊆ next.sent ∧ ∀ r, state.delivered r <+: next.delivered r := by
  rcases hstep with ⟨p, -, rfl⟩ | ⟨p, -, rfl⟩ | ⟨r, m, -, -, -, -, rfl⟩ | ⟨r, s, -, -, rfl⟩
    | ⟨r, m, -, -, -, rfl⟩
  · exact ⟨Finset.subset_insert _ _, fun _ => List.prefix_refl _⟩
  · exact ⟨Finset.Subset.refl _, fun _ => List.prefix_refl _⟩
  · exact ⟨Finset.Subset.refl _, fun _ => List.prefix_refl _⟩
  · exact ⟨Finset.Subset.refl _, fun _ => List.prefix_refl _⟩
  · refine ⟨Finset.Subset.refl _, fun other => ?_⟩
    dsimp only
    by_cases hother : other = r
    · subst hother
      rw [Function.update_self]
      exact List.prefix_append _ _
    · rw [Function.update_of_ne hother]

theorem run_extends (hrun : Relation.ReflTransGen (Next maxTs) state next) :
    state.sent ⊆ next.sent ∧ ∀ r, state.delivered r <+: next.delivered r := by
  induction hrun with
  | refl => exact ⟨Finset.Subset.refl _, fun _ => List.prefix_refl _⟩
  | tail _ hstep ih =>
      obtain ⟨hsent, hdelivered⟩ := next_extends hstep
      exact ⟨ih.1.trans hsent, fun r => (ih.2 r).trans (hdelivered r)⟩

end Step

/-! ### What is left of a run -/

section Left

variable [Fintype Proc]

/-- The clock that is left. -/
def clockLeft (maxTs : Nat) (state : State Proc) : Nat := ∑ p, (maxTs + 1 - state.clock p)

/-- An arrival and a delivery for what is missing, a delivery for what is held. -/
def messagesLeft (state : State Proc) : Nat :=
  ∑ r, (2 * (missing state r).card + (state.buffer r).card)

/-- The way the barriers still have to the bound. -/
def barriersLeft (maxTs : Nat) (state : State Proc) : Nat :=
  ∑ r, ∑ s, (maxTs + 1 - state.known r s)

/-- A bound on the number of steps from here. -/
def stepsLeft (maxTs : Nat) (state : State Proc) : Nat :=
  clockLeft maxTs state * (2 * Fintype.card Proc + 1) + messagesLeft state
    + barriersLeft maxTs state

variable {state next : State Proc} {maxTs : Nat}

omit [LinearOrder Proc] in
/-- A step moves one entry. -/
theorem sum_lt_of_moved {before after : Proc → Nat} (moved : Proc)
    (hothers : ∀ p, p ≠ moved → after p = before p) (hless : after moved < before moved) :
    ∑ p, after p < ∑ p, before p := by
  refine Finset.sum_lt_sum (fun p _ => ?_) ⟨moved, Finset.mem_univ moved, hless⟩
  by_cases hp : p = moved
  · exact hp ▸ hless.le
  · exact (hothers p hp).le

theorem clockLeft_update {p : Proc} (hclock : state.clock p ≤ maxTs) :
    ∑ s, (maxTs + 1 - Function.update state.clock p (state.clock p + 1) s)
      < clockLeft maxTs state := by
  refine sum_lt_of_moved p (fun s hs => ?_) ?_
  · rw [Function.update_of_ne hs]
  · rw [Function.update_self]
    omega

omit [Fintype Proc] in
theorem card_missing_insert (state : State Proc) (m : Msg Proc) (r : Proc) :
    ((insert m state.sent).filter fun n => n ∉ state.buffer r ∧ n ∉ state.delivered r).card
      ≤ (missing state r).card + 1 := by
  refine (Finset.card_le_card ?_).trans (Finset.card_insert_le m (missing state r))
  rw [Finset.filter_insert]
  split
  · exact Finset.Subset.refl _
  · exact Finset.subset_insert _ _

theorem stepsLeft_tick {p : Proc} (hstep : Tick maxTs p state next) :
    stepsLeft maxTs next < stepsLeft maxTs state := by
  obtain ⟨hclock, rfl⟩ := hstep
  have hclocks := Nat.mul_lt_mul_of_pos_right (clockLeft_update hclock)
    (Nat.succ_pos (2 * Fintype.card Proc))
  exact Nat.add_lt_add_right (Nat.add_lt_add_right hclocks _) _

/-- A send pays for the steps of its message at every receiver. -/
theorem stepsLeft_send {p : Proc} (hstep : Send maxTs p state next) :
    stepsLeft maxTs next < stepsLeft maxTs state := by
  obtain ⟨hclock, hnext⟩ := hstep
  have hclocks : clockLeft maxTs next + 1 ≤ clockLeft maxTs state := by
    rw [hnext]
    exact clockLeft_update hclock
  have hweight := Nat.mul_le_mul_right (2 * Fintype.card Proc + 1) hclocks
  rw [Nat.add_mul, Nat.one_mul] at hweight
  have hmessages : messagesLeft next ≤ messagesLeft state + 2 * Fintype.card Proc := by
    calc messagesLeft next
        ≤ ∑ r, (2 * (missing state r).card + (state.buffer r).card + 2) := by
          rw [hnext]
          refine Finset.sum_le_sum fun r _ => ?_
          have hmissing := card_missing_insert state { ts := state.clock p, src := p } r
          change 2 * ((insert _ state.sent).filter fun n =>
            n ∉ state.buffer r ∧ n ∉ state.delivered r).card + (state.buffer r).card ≤ _
          omega
      _ = messagesLeft state + 2 * Fintype.card Proc := by
          rw [Finset.sum_add_distrib, Finset.sum_const, Finset.card_univ, Nat.nsmul_eq_mul,
            Nat.mul_comm, messagesLeft]
  have hbarriers : barriersLeft maxTs next = barriersLeft maxTs state := by rw [hnext]; rfl
  unfold stepsLeft
  omega

theorem stepsLeft_receive {r : Proc} {m : Msg Proc} (hstep : Receive r m state next) :
    stepsLeft maxTs next < stepsLeft maxTs state := by
  obtain ⟨hsent, hbuffer, hdelivered, rfl⟩ := hstep
  have hmissing : m ∈ missing state r := Finset.mem_filter.mpr ⟨hsent, hbuffer, hdelivered⟩
  have herase : (state.sent.filter fun n =>
      n ∉ insert m (state.buffer r) ∧ n ∉ state.delivered r) ⊆ (missing state r).erase m := by
    intro n hn
    obtain ⟨hn, hheld, hdone⟩ := Finset.mem_filter.mp hn
    rw [Finset.mem_insert, not_or] at hheld
    exact Finset.mem_erase.mpr ⟨hheld.1, Finset.mem_filter.mpr ⟨hn, hheld.2, hdone⟩⟩
  have hless := Finset.card_le_card herase
  have hpositive := Finset.card_pos.mpr ⟨m, hmissing⟩
  rw [Finset.card_erase_of_mem hmissing] at hless
  have hheld := Finset.card_insert_le m (state.buffer r)
  have hmessages : messagesLeft { state with
      buffer := Function.update state.buffer r (insert m (state.buffer r)) }
        < messagesLeft state := by
    refine sum_lt_of_moved r (fun other hother => ?_) ?_
    · simp only [missing, Function.update_of_ne hother]
    · simp only [missing, Function.update_self] at hless hpositive ⊢
      omega
  exact Nat.add_lt_add_right (Nat.add_lt_add_left hmessages _) _

theorem stepsLeft_learnBarrier {r s : Proc} (hranged : Ranged maxTs state)
    (hstep : LearnBarrier r s state next) : stepsLeft maxTs next < stepsLeft maxTs state := by
  obtain ⟨hraise, -, rfl⟩ := hstep
  have hclock := hranged.clocks s
  have hbarriers : barriersLeft maxTs { state with
      known := Function.update state.known r
        (Function.update (state.known r) s (state.clock s)) } < barriersLeft maxTs state := by
    refine sum_lt_of_moved r (fun other hother => ?_) ?_
    · simp only [Function.update_of_ne hother]
    · simp only [Function.update_self]
      refine sum_lt_of_moved s (fun sender hsender => ?_) ?_
      · rw [Function.update_of_ne hsender]
      · rw [Function.update_self]
        omega
  exact Nat.add_lt_add_left hbarriers _

theorem stepsLeft_deliver {r : Proc} (hstep : Deliver r state next) :
    stepsLeft maxTs next < stepsLeft maxTs state := by
  obtain ⟨m, hbuffer, -, -, rfl⟩ := hstep
  have hsame : (state.sent.filter fun n =>
      n ∉ (state.buffer r).erase m ∧ n ∉ state.delivered r ++ [m]) ⊆ missing state r := by
    intro n hn
    obtain ⟨hn, hheld, hdone⟩ := Finset.mem_filter.mp hn
    rw [List.mem_append, List.mem_singleton, not_or] at hdone
    refine Finset.mem_filter.mpr ⟨hn, fun hn => hheld ?_, hdone.1⟩
    exact Finset.mem_erase.mpr ⟨hdone.2, hn⟩
  have hle := Finset.card_le_card hsame
  have hpositive := Finset.card_pos.mpr ⟨m, hbuffer⟩
  have hheld := Finset.card_erase_of_mem hbuffer
  have hmessages : messagesLeft { state with
      buffer := Function.update state.buffer r ((state.buffer r).erase m)
      delivered := Function.update state.delivered r (state.delivered r ++ [m]) }
        < messagesLeft state := by
    refine sum_lt_of_moved r (fun other hother => ?_) ?_
    · simp only [missing, Function.update_of_ne hother]
    · simp only [missing, Function.update_self] at hle ⊢
      omega
  exact Nat.add_lt_add_right (Nat.add_lt_add_left hmessages _) _

/-- Every step brings the end nearer. -/
theorem stepsLeft_lt (hranged : Ranged maxTs state) (hstep : Next maxTs state next) :
    stepsLeft maxTs next < stepsLeft maxTs state := by
  rcases hstep with ⟨p, hsend⟩ | ⟨p, htick⟩ | ⟨r, m, -, hreceive⟩ | ⟨r, s, hlearn⟩ | ⟨r, hdeliver⟩
  · exact stepsLeft_send hsend
  · exact stepsLeft_tick htick
  · exact stepsLeft_receive hreceive
  · exact stepsLeft_learnBarrier hranged hlearn
  · exact stepsLeft_deliver hdeliver

end Left

/-! ### A state without a next step -/

section Final

variable {state : State Proc} {maxTs : Nat}

theorem Before.trans {first second third : Msg Proc} (hfirst : Before first second)
    (hsecond : Before second third) : Before first third := by
  rcases hfirst with hlt | ⟨heq, hsrc⟩
  · exact .inl (Nat.lt_of_lt_of_le hlt hsecond.ts_le)
  · rcases hsecond with hlt | ⟨heq', hsrc'⟩
    · exact .inl (heq ▸ hlt)
    · exact .inr ⟨heq.trans heq', hsrc.trans hsrc'⟩

/-- Of the messages a receiver holds one comes first. -/
theorem exists_least {held : Finset (Msg Proc)} (hheld : held.Nonempty) :
    ∃ m ∈ held, ∀ other ∈ held, other ≠ m → Before m other := by
  induction hheld using Finset.Nonempty.cons_induction with
  | singleton m =>
      exact ⟨m, Finset.mem_singleton_self m, fun other hother hne =>
        absurd (Finset.mem_singleton.mp hother) hne⟩
  | cons first held hfirst hheld ih =>
      obtain ⟨least, hleast, hbefore⟩ := ih
      have hne : first ≠ least := fun hsame => hfirst (hsame ▸ hleast)
      rcases Before.total hne with hnew | hold
      · refine ⟨first, Finset.mem_cons_self first held, fun other hother hother' => ?_⟩
        have hmem := (Finset.mem_cons.mp hother).resolve_left hother'
        by_cases hsame : other = least
        · exact hsame ▸ hnew
        · exact Before.trans hnew (hbefore other hmem hsame)
      · refine ⟨least, Finset.mem_cons_of_mem hleast, fun other hother hother' => ?_⟩
        rcases Finset.mem_cons.mp hother with rfl | hmem
        · exact hold
        · exact hbefore other hmem hother'

/-- The clocks have run out and every message has arrived, so every gate is open and every barrier is
above every message. -/
theorem mem_delivered_of_final (hinv : Inv state) (hranged : Ranged maxTs state)
    (hfinal : ∀ next, ¬ Next maxTs state next) {m : Msg Proc} (r : Proc) :
    m ∈ state.delivered r ↔ m ∈ state.sent := by
  have hclock : ∀ p, state.clock p = maxTs + 1 := by
    intro p
    by_contra hleft
    have hle := hranged.clocks p
    exact hfinal _ (.inr (.inl ⟨p, by omega, rfl⟩))
  have harrived : ∀ r, ∀ m ∈ state.sent, m ∈ state.buffer r ∨ m ∈ state.delivered r := by
    intro r m hm
    by_contra hmissing
    rw [not_or] at hmissing
    exact hfinal _ (.inr (.inr (.inl ⟨r, m, hranged.stamps m hm, hm, hmissing.1, hmissing.2, rfl⟩)))
  have hknown : ∀ r s, state.known r s = maxTs + 1 := by
    intro r s
    by_contra hbelow
    have hle := hinv.bounded r s
    have hs := hclock s
    exact hfinal _ (.inr (.inr (.inr (.inl
      ⟨r, s, by omega, fun m hm _ _ => harrived r m hm, rfl⟩))))
  refine ⟨hranged.fromSent r m, fun hm => ?_⟩
  by_contra hundelivered
  have hheld : (state.buffer r).Nonempty := ⟨m, (harrived r m hm).resolve_right hundelivered⟩
  obtain ⟨least, hleast, hbefore⟩ := exists_least hheld
  have hstamp := hranged.stamps least (hinv.fromSent r least hleast)
  have hbarrier : least.ts < barrier state r :=
    lt_barrier_iff.mpr fun s => by rw [hknown]; omega
  exact hfinal _ (.inr (.inr (.inr (.inr ⟨r, least, hleast, hbarrier, hbefore, rfl⟩))))

theorem Sorted.eq_of_final (hsorted : Sorted state)
    (hall : ∀ r m, m ∈ state.delivered r ↔ m ∈ state.sent) (r₁ r₂ : Proc) :
    state.delivered r₁ = state.delivered r₂ := by
  have hwhole : ∀ r r', (state.delivered r).filter (· ∈ state.delivered r') = state.delivered r := by
    intro r r'
    refine List.filter_eq_self.mpr fun m hm => decide_eq_true ?_
    exact (hall r' m).mpr ((hall r m).mp hm)
  rw [← hwhole r₁ r₂, hsorted.common r₁ r₂, hwhole r₂ r₁]

end Final

section Run

variable [Fintype Proc] {state : State Proc} {maxTs : Nat}

theorem acc_of_reachable (hreachable : Reachable maxTs state) :
    Acc (fun later earlier => Next maxTs earlier later) state := by
  generalize hleft : stepsLeft maxTs state = left
  induction left using Nat.strong_induction_on generalizing state with
  | h left ih =>
      refine ⟨state, fun next hstep => ?_⟩
      have hless := stepsLeft_lt (ranged_of_reachable hreachable) hstep
      exact ih _ (hleft ▸ hless) (hreachable.tail hstep) rfl

/-- **Every run ends, and it ends with everything delivered.** From a reachable state there is no
infinite run, some run goes on until no step is left, and where no step is left every receiver has
appended what it lacked: all of them have delivered every message sent, in one and the same order. -/
theorem runs_end_delivered (hreachable : Reachable maxTs state) :
    Acc (fun later earlier => Next maxTs earlier later) state
      ∧ (∃ last, Relation.ReflTransGen (Next maxTs) state last ∧ ∀ next, ¬ Next maxTs last next)
      ∧ ∀ last, Relation.ReflTransGen (Next maxTs) state last → (∀ next, ¬ Next maxTs last next) →
        state.sent ⊆ last.sent ∧ Sorted last
          ∧ (∀ r, state.delivered r <+: last.delivered r)
          ∧ (∀ r m, m ∈ last.delivered r ↔ m ∈ last.sent)
          ∧ ∀ r₁ r₂, last.delivered r₁ = last.delivered r₂ := by
  have hacc := acc_of_reachable hreachable
  refine ⟨hacc, ?_, fun last hrun hfinal => ?_⟩
  · induction hacc with
    | intro state _ ih =>
        by_cases hstep : ∃ next, Next maxTs state next
        · obtain ⟨next, hstep⟩ := hstep
          obtain ⟨last, hrun, hfinal⟩ := ih next hstep (hreachable.tail hstep)
          exact ⟨last, hrun.head hstep, hfinal⟩
        · exact ⟨state, .refl, not_exists.mp hstep⟩
  · have hlast := hreachable.trans hrun
    have hinv := inv_of_reachable hlast
    have hall := fun r m =>
      mem_delivered_of_final (m := m) hinv (ranged_of_reachable hlast) hfinal r
    obtain ⟨hsent, hdelivered⟩ := run_extends hrun
    exact ⟨hsent, hinv.sorted, hdelivered, hall, hinv.sorted.eq_of_final hall⟩

theorem runs_end_delivered_sent :
    let state : State (Fin 2) := { (init : State (Fin 2)) with
      sent := {{ ts := 1, src := 0 }}, clock := Function.update (fun _ => 1) 0 2 }
    ∃ last, Relation.ReflTransGen (Next 1) state last ∧ { ts := 1, src := 0 } ∈ last.delivered 1 := by
  intro state
  have hreachable : Reachable 1 state := by
    refine .tail .refl (.inl ⟨0, Nat.le_refl 1, ?_⟩)
    rfl
  obtain ⟨-, ⟨last, hrun, hfinal⟩, hends⟩ := runs_end_delivered hreachable
  obtain ⟨hsent, -, -, hall, -⟩ := hends last hrun hfinal
  exact ⟨last, hrun, (hall 1 _).mpr (hsent (Finset.mem_singleton_self _))⟩

end Run

end OneBarrier.OnePipe
