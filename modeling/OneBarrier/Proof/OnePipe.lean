import OneBarrier.OnePipe
import Mathlib.Data.List.Pairwise

/-!
# Why the order is total

A barrier `r` knows for `s` is at most the clock of `s`, and everything `s` sent below it has arrived.
So a message below all the barriers of `r` is preceded by nothing that is still to come: what precedes
it has arrived, and what is sent from now on is stamped at a barrier or above.
-/

namespace OneBarrier.OnePipe

variable {Proc : Type} [LinearOrder Proc]

theorem Before.irrefl (m : Msg Proc) : ¬ Before m m := by
  rintro (hts | ⟨-, hsrc⟩)
  · exact Nat.lt_irrefl _ hts
  · exact lt_irrefl _ hsrc

theorem Before.asymm {first second : Msg Proc} (hbefore : Before first second) :
    ¬ Before second first := by
  rintro (hts | ⟨hts, hsrc⟩)
  · rcases hbefore with hlt | ⟨heq, -⟩
    · exact Nat.lt_asymm hts hlt
    · exact Nat.ne_of_gt hts heq
  · rcases hbefore with hlt | ⟨-, hlt⟩
    · exact Nat.ne_of_gt hlt hts
    · exact lt_asymm hsrc hlt

theorem Before.total {first second : Msg Proc} (hne : first ≠ second) :
    Before first second ∨ Before second first := by
  rcases Nat.lt_trichotomy first.ts second.ts with hts | hts | hts
  · exact .inl (.inl hts)
  · rcases lt_trichotomy first.src second.src with hsrc | hsrc | hsrc
    · exact .inl (.inr ⟨hts, hsrc⟩)
    · obtain ⟨ts, src⟩ := first
      obtain ⟨ts', src'⟩ := second
      obtain rfl : ts = ts' := hts
      obtain rfl : src = src' := hsrc
      exact absurd rfl hne
    · exact .inr (.inr ⟨hts.symm, hsrc⟩)
  · exact .inr (.inl hts)

theorem Before.ts_le {first second : Msg Proc} (hbefore : Before first second) :
    first.ts ≤ second.ts := by
  rcases hbefore with hlt | ⟨heq, -⟩
  · exact Nat.le_of_lt hlt
  · exact Nat.le_of_eq heq

omit [LinearOrder Proc] in
theorem lt_barrier_iff {state : State Proc} {r : Proc} {ts : Nat} :
    ts < barrier state r ↔ ∀ s, ts < state.known r s := by
  have hnonempty : (Set.range (state.known r)).Nonempty := ⟨_, r, rfl⟩
  constructor
  · intro hlt s
    exact Nat.lt_of_lt_of_le hlt (Nat.sInf_le ⟨s, rfl⟩)
  · intro hall
    obtain ⟨s, hs⟩ := Nat.sInf_mem hnonempty
    rw [barrier, ← hs]
    exact hall s

/-- What holds of every reachable state. -/
structure Inv (state : State Proc) : Prop where
  stamped : ∀ m ∈ state.sent, m.ts < state.clock m.src
  bounded : ∀ r s, state.known r s ≤ state.clock s
  arrived : ∀ r, ∀ m ∈ state.sent, m.ts < state.known r m.src →
    m ∈ state.buffer r ∨ m ∈ state.delivered r
  separate : ∀ r, ∀ m ∈ state.buffer r, m ∉ state.delivered r
  below : ∀ r, ∀ m ∈ state.delivered r, ∀ s, m.ts < state.known r s
  fromSent : ∀ r, ∀ m ∈ state.buffer r, m ∈ state.sent
  sorted : Sorted state
  closed : DownwardClosed state

theorem inv_init : Inv (init : State Proc) where
  stamped := by simp [init]
  bounded := by simp [init]
  arrived := by simp [init]
  separate := by simp [init]
  below := by simp [init]
  fromSent := by simp [init]
  sorted := fun _ => List.Pairwise.nil
  closed := by simp [DownwardClosed, init]

section Step

variable {state next : State Proc} {maxTs : Nat}

theorem clock_le_update (state : State Proc) (p s : Proc) :
    state.clock s ≤ Function.update state.clock p (state.clock p + 1) s := by
  by_cases hs : s = p
  · rw [hs, Function.update_self]
    exact Nat.le_succ _
  · rw [Function.update_of_ne hs]

theorem Inv.tick (hinv : Inv state) {p : Proc} (hstep : Tick maxTs p state next) : Inv next := by
  obtain ⟨-, rfl⟩ := hstep
  exact { hinv with
    stamped := fun m hm => Nat.lt_of_lt_of_le (hinv.stamped m hm) (clock_le_update state p m.src)
    bounded := fun r s => Nat.le_trans (hinv.bounded r s) (clock_le_update state p s) }

/-- A new message is stamped at or above every barrier for its sender. -/
theorem Inv.send (hinv : Inv state) {p : Proc} (hstep : Send maxTs p state next) : Inv next := by
  obtain ⟨-, rfl⟩ := hstep
  refine { hinv with stamped := ?_, bounded := ?_, arrived := ?_, fromSent := ?_, closed := ?_ }
  · intro m hm
    rcases Finset.mem_insert.mp hm with rfl | hold
    · dsimp only
      rw [Function.update_self]
      exact Nat.lt_succ_self _
    · exact Nat.lt_of_lt_of_le (hinv.stamped m hold) (clock_le_update state p m.src)
  · exact fun r s => Nat.le_trans (hinv.bounded r s) (clock_le_update state p s)
  · intro r m hm hknown
    rcases Finset.mem_insert.mp hm with rfl | hold
    · exact absurd hknown (Nat.not_lt.mpr (hinv.bounded r p))
    · exact hinv.arrived r m hold hknown
  · exact fun r m hm => Finset.mem_insert_of_mem (hinv.fromSent r m hm)
  · intro r m hm hnew delivered hdelivered hbefore
    rcases Finset.mem_insert.mp hm with rfl | hold
    · have hlow : delivered.ts < state.clock p :=
        Nat.lt_of_lt_of_le (hinv.below r delivered hdelivered p) (hinv.bounded r p)
      exact Nat.not_le.mpr hlow hbefore.ts_le
    · exact hinv.closed r m hold hnew delivered hdelivered hbefore

theorem Inv.receive (hinv : Inv state) {r : Proc} {m : Msg Proc}
    (hstep : Receive r m state next) : Inv next := by
  obtain ⟨hsent, -, hnew, rfl⟩ := hstep
  refine { hinv with arrived := ?_, separate := ?_, fromSent := ?_ }
  · intro other n hn hknown
    rcases hinv.arrived other n hn hknown with hbuffer | hdelivered
    · left
      by_cases hother : other = r
      · subst hother
        dsimp only
        rw [Function.update_self]
        exact Finset.mem_insert_of_mem hbuffer
      · dsimp only
        rwa [Function.update_of_ne hother]
    · exact .inr hdelivered
  · intro other n hn
    dsimp only at hn ⊢
    by_cases hother : other = r
    · subst hother
      rw [Function.update_self] at hn
      rcases Finset.mem_insert.mp hn with rfl | hold
      · exact hnew
      · exact hinv.separate _ n hold
    · rw [Function.update_of_ne hother] at hn
      exact hinv.separate other n hn
  · intro other n hn
    dsimp only at hn ⊢
    by_cases hother : other = r
    · subst hother
      rw [Function.update_self] at hn
      rcases Finset.mem_insert.mp hn with rfl | hold
      · exact hsent
      · exact hinv.fromSent _ n hold
    · rw [Function.update_of_ne hother] at hn
      exact hinv.fromSent other n hn

/-- A barrier is only ever raised, and what is sent below the new one has passed the gate. -/
theorem Inv.learnBarrier (hinv : Inv state) {r s : Proc} (hstep : LearnBarrier r s state next) :
    Inv next := by
  obtain ⟨hraise, hgate, rfl⟩ := hstep
  have hknown : ∀ other sender,
      Function.update state.known r (Function.update (state.known r) s (state.clock s)) other sender
          = state.known other sender
        ∨ other = r ∧ sender = s ∧ Function.update state.known r
            (Function.update (state.known r) s (state.clock s)) other sender = state.clock s := by
    intro other sender
    by_cases hother : other = r
    · subst hother
      rw [Function.update_self]
      by_cases hsender : sender = s
      · subst hsender
        exact .inr ⟨rfl, rfl, Function.update_self ..⟩
      · exact .inl (Function.update_of_ne hsender ..)
    · rw [Function.update_of_ne hother]
      exact .inl rfl
  refine { hinv with bounded := ?_, arrived := ?_, below := ?_ }
  · intro other sender
    rcases hknown other sender with hsame | ⟨-, rfl, hnew⟩
    · exact (Nat.le_of_eq hsame).trans (hinv.bounded other sender)
    · exact Nat.le_of_eq hnew
  · intro other m hm hlow
    rcases hknown other m.src with hsame | ⟨rfl, hsrc, hnew⟩
    · exact hinv.arrived other m hm (Nat.lt_of_lt_of_eq hlow hsame)
    · exact hgate m hm hsrc (Nat.lt_of_lt_of_eq hlow hnew)
  · intro other m hm sender
    have hbelow := hinv.below other m hm sender
    rcases hknown other sender with hsame | ⟨rfl, rfl, hnew⟩
    · exact Nat.lt_of_lt_of_eq hbelow hsame.symm
    · exact Nat.lt_of_lt_of_eq (Nat.lt_trans hbelow hraise) hnew.symm

/-- Everything that comes before the message delivered has been delivered. -/
theorem Inv.deliver (hinv : Inv state) {r : Proc} (hstep : Deliver r state next) : Inv next := by
  obtain ⟨m, hbuffer, hbarrier, hleast, rfl⟩ := hstep
  have hbelow := lt_barrier_iff.mp hbarrier
  have hnew := hinv.separate r m hbuffer
  refine { hinv with
    arrived := ?_, separate := ?_, below := ?_, fromSent := ?_, sorted := ?_, closed := ?_ }
  · intro other n hn hlow
    dsimp only
    by_cases hother : other = r
    · subst hother
      rw [Function.update_self, Function.update_self, List.mem_append, List.mem_singleton,
        Finset.mem_erase]
      by_cases hm : n = m
      · exact .inr (.inr hm)
      · rcases hinv.arrived _ n hn hlow with hheld | hdone
        · exact .inl ⟨hm, hheld⟩
        · exact .inr (.inl hdone)
    · rw [Function.update_of_ne hother, Function.update_of_ne hother]
      exact hinv.arrived other n hn hlow
  · intro other n hn
    dsimp only at hn ⊢
    by_cases hother : other = r
    · subst hother
      rw [Function.update_self] at hn ⊢
      obtain ⟨hm, hheld⟩ := Finset.mem_erase.mp hn
      rw [List.mem_append, List.mem_singleton]
      rintro (hdone | hsame)
      · exact hinv.separate _ n hheld hdone
      · exact hm hsame
    · rw [Function.update_of_ne hother] at hn ⊢
      exact hinv.separate other n hn
  · intro other n hn s
    dsimp only at hn ⊢
    by_cases hother : other = r
    · subst hother
      rw [Function.update_self, List.mem_append, List.mem_singleton] at hn
      rcases hn with hdone | rfl
      · exact hinv.below _ n hdone s
      · exact hbelow s
    · rw [Function.update_of_ne hother] at hn
      exact hinv.below other n hn s
  · intro other n hn
    dsimp only at hn ⊢
    by_cases hother : other = r
    · subst hother
      rw [Function.update_self] at hn
      exact hinv.fromSent _ n (Finset.mem_of_mem_erase hn)
    · rw [Function.update_of_ne hother] at hn
      exact hinv.fromSent other n hn
  · intro other
    dsimp only
    by_cases hother : other = r
    · subst hother
      rw [Function.update_self, List.pairwise_append]
      refine ⟨hinv.sorted _, List.pairwise_singleton _ _, fun earlier hearlier last hlast => ?_⟩
      obtain rfl := List.mem_singleton.mp hlast
      have hne : earlier ≠ last := fun hsame => hnew (hsame ▸ hearlier)
      refine (Before.total hne).resolve_right ?_
      exact hinv.closed _ last (hinv.fromSent _ last hbuffer) hnew earlier hearlier
    · rw [Function.update_of_ne hother]
      exact hinv.sorted other
  · intro other n hn hlate delivered hdelivered hbefore
    dsimp only at hn hlate hdelivered
    by_cases hother : other = r
    · subst hother
      rw [Function.update_self, List.mem_append, List.mem_singleton] at hlate hdelivered
      rcases hdelivered with hdone | rfl
      · exact hinv.closed _ n hn (fun hold => hlate (.inl hold)) delivered hdone hbefore
      · have hlow : n.ts < state.known other n.src :=
          Nat.lt_of_le_of_lt hbefore.ts_le (hbelow n.src)
        rcases hinv.arrived other n hn hlow with hheld | hold
        · exact (hleast n hheld fun hsame => hlate (.inr hsame)).asymm hbefore
        · exact hlate (.inl hold)
    · rw [Function.update_of_ne hother] at hlate hdelivered
      exact hinv.closed other n hn hlate delivered hdelivered hbefore

/-- **The step lemma.** -/
theorem Inv.step (hinv : Inv state) (hstep : Next maxTs state next) : Inv next := by
  rcases hstep with ⟨p, hsend⟩ | ⟨p, htick⟩ | ⟨r, m, -, hreceive⟩ | ⟨r, s, hlearn⟩ | ⟨r, hdeliver⟩
  · exact hinv.send hsend
  · exact hinv.tick htick
  · exact hinv.receive hreceive
  · exact hinv.learnBarrier hlearn
  · exact hinv.deliver hdeliver

theorem inv_of_reachable (hreachable : Reachable maxTs state) : Inv state := by
  induction hreachable with
  | refl => exact inv_init
  | tail _ hstep ih => exact ih.step hstep

end Step

section Order

variable {state : State Proc}

theorem Inv.causality (hinv : Inv state) : Causality state := fun r m hm =>
  Nat.lt_of_lt_of_le (hinv.below r m hm r) (hinv.bounded r r)

theorem Sorted.agreeOrder (hsorted : Sorted state) : AgreeOrder state := by
  rintro r₁ r₂ m₁ m₂ - - - - hbefore ⟨i, j, hi, hj, hlt⟩
  obtain ⟨hi', rfl⟩ := List.getElem?_eq_some_iff.mp hi
  obtain ⟨hj', rfl⟩ := List.getElem?_eq_some_iff.mp hj
  exact (List.pairwise_iff_getElem.mp (hsorted r₂) i j hi' hj' hlt).asymm hbefore

/-- What two receivers have in common is the same list. -/
theorem Sorted.common (hsorted : Sorted state) (r₁ r₂ : Proc) :
    (state.delivered r₁).filter (· ∈ state.delivered r₂)
      = (state.delivered r₂).filter (· ∈ state.delivered r₁) := by
  have hstrict : ∀ r, (state.delivered r).Nodup := by
    refine fun r => (hsorted r).imp ?_
    rintro m other hbefore rfl
    exact Before.irrefl m hbefore
  refine List.Perm.eq_of_pairwise ?_ ((hsorted r₁).filter _) ((hsorted r₂).filter _) ?_
  · exact fun first second _ _ hfirst hsecond => absurd hsecond hfirst.asymm
  · refine (List.perm_ext_iff_of_nodup ((hstrict r₁).filter _) ((hstrict r₂).filter _)).mpr ?_
    intro m
    simp only [List.mem_filter, decide_eq_true_eq]
    exact And.comm

end Order

/-- **Total order.** For every set of processes with a total order, every clock bound and every
reachable state. -/
theorem total_order {maxTs : Nat} {state : State Proc} (hreachable : Reachable maxTs state) :
    Sorted state ∧ DownwardClosed state ∧ AgreeOrder state ∧ Causality state
      ∧ ∀ r₁ r₂, (state.delivered r₁).filter (· ∈ state.delivered r₂)
        = (state.delivered r₂).filter (· ∈ state.delivered r₁) := by
  have hinv := inv_of_reachable hreachable
  exact ⟨hinv.sorted, hinv.closed, hinv.sorted.agreeOrder, hinv.causality, hinv.sorted.common⟩

/-- One process sends, the other hears a beacon of its own and both barriers, and delivers. -/
theorem exists_reachable_delivered : ∃ state : State (Fin 2),
    Reachable 1 state ∧ state.delivered 1 = [{ ts := 1, src := 0 }] := by
  have hsent := Relation.ReflTransGen.single
    (show Next 1 (init : State (Fin 2)) _ from .inl ⟨0, Nat.le_refl 1, rfl⟩)
  have hticked := hsent.tail (.inr (.inl ⟨1, Nat.le_refl 1, rfl⟩))
  have hreceived := hticked.tail (.inr (.inr (.inl ⟨1, { ts := 1, src := 0 }, by decide, by decide,
    by decide, by decide, rfl⟩)))
  have hfirst := hreceived.tail (.inr (.inr (.inr (.inl ⟨1, 0, by decide, by decide, rfl⟩))))
  have hsecond := hfirst.tail (.inr (.inr (.inr (.inl ⟨1, 1, by decide, by decide, rfl⟩))))
  refine ⟨_, hsecond.tail (.inr (.inr (.inr (.inr ⟨1, { ts := 1, src := 0 }, by decide, ?_,
    by decide, rfl⟩)))), rfl⟩
  rw [lt_barrier_iff]
  decide

/-- Both processes send; the messages come to the two receivers in different orders, and both deliver
the first process's before the other's. -/
theorem exists_reachable_both : ∃ state : State (Fin 2),
    Reachable 1 state ∧ ∀ r, state.delivered r = [{ ts := 1, src := 0 }, { ts := 1, src := 1 }] := by
  have hsent := (Relation.ReflTransGen.single
    (show Next 1 (init : State (Fin 2)) _ from .inl ⟨0, Nat.le_refl 1, rfl⟩)).tail
      (.inl ⟨1, by decide, rfl⟩)
  have hreceived := ((hsent.tail
    (.inr (.inr (.inl ⟨0, { ts := 1, src := 0 }, by decide, by decide, by decide, by decide, rfl⟩)))).tail
    (.inr (.inr (.inl ⟨0, { ts := 1, src := 1 }, by decide, by decide, by decide, by decide, rfl⟩)))).tail
    (.inr (.inr (.inl ⟨1, { ts := 1, src := 1 }, by decide, by decide, by decide, by decide, rfl⟩)))
  have hall := hreceived.tail
    (.inr (.inr (.inl ⟨1, { ts := 1, src := 0 }, by decide, by decide, by decide, by decide, rfl⟩)))
  have hlearned := (((hall.tail
    (.inr (.inr (.inr (.inl ⟨0, 0, by decide, by decide, rfl⟩))))).tail
    (.inr (.inr (.inr (.inl ⟨0, 1, by decide, by decide, rfl⟩))))).tail
    (.inr (.inr (.inr (.inl ⟨1, 0, by decide, by decide, rfl⟩))))).tail
    (.inr (.inr (.inr (.inl ⟨1, 1, by decide, by decide, rfl⟩))))
  have hzero := (hlearned.tail (.inr (.inr (.inr (.inr ⟨0, { ts := 1, src := 0 }, by decide,
    lt_barrier_iff.mpr (by decide), by decide, rfl⟩))))).tail
    (.inr (.inr (.inr (.inr ⟨0, { ts := 1, src := 1 }, by decide, lt_barrier_iff.mpr (by decide),
      by decide, rfl⟩))))
  have hone := (hzero.tail (.inr (.inr (.inr (.inr ⟨1, { ts := 1, src := 0 }, by decide,
    lt_barrier_iff.mpr (by decide), by decide, rfl⟩))))).tail
    (.inr (.inr (.inr (.inr ⟨1, { ts := 1, src := 1 }, by decide, lt_barrier_iff.mpr (by decide),
      by decide, rfl⟩))))
  exact ⟨_, hone, by decide⟩

theorem total_order_delivered : ∃ state : State (Fin 2),
    (∀ r, state.delivered r = [{ ts := 1, src := 0 }, { ts := 1, src := 1 }])
      ∧ Sorted state ∧ DownwardClosed state ∧ AgreeOrder state ∧ Causality state
        ∧ ∀ r₁ r₂, (state.delivered r₁).filter (· ∈ state.delivered r₂)
          = (state.delivered r₂).filter (· ∈ state.delivered r₁) := by
  obtain ⟨state, hreachable, hdelivered⟩ := exists_reachable_both
  exact ⟨state, hdelivered, total_order hreachable⟩

end OneBarrier.OnePipe
