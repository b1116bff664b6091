import OneBarrier.Slots

/-!
# Which slots are used

A thread has a slot below `MAXT` or none, and uses its own slot only if it has one. The scan of the
gate goes up to the number of slots handed out, and that number also counts the attempts that got
none, so the scan stays in range as long as there have been no more attempts than slots.
-/

namespace OneBarrier.Slots

open Run

def InRange (slot : Int32) : Prop := 0 ≤ slot ∧ slot < maxt

/-- A gate wait that loads `next_slot` finds at most `MAXT`. -/
def Bounded (state : Sched) : Event → Prop
  | .go tid _ =>
      ∀ call spins mylc, (state.threads tid).pc = .loadCount call spins mylc →
        state.nextSlot ≤ maxt
  | _ => True

def Pc.loadsCount : Pc → Bool
  | .loadCount .. => true
  | _ => false

theorem bounded_go_iff (state : Sched) (tid : Nat) (ok : Bool) :
    Bounded state (.go tid ok)
      ↔ ((state.threads tid).pc.loadsCount = true → state.nextSlot ≤ maxt) := by
  constructor
  · intro hbounded hloads
    cases hpc : (state.threads tid).pc with
    | loadCount call spins mylc => exact hbounded call spins mylc hpc
    | _ =>
      rw [hpc] at hloads
      cases hloads
  · intro hbounded call spins mylc hpc
    rw [hpc] at hbounded
    exact hbounded rfl

instance (state : Sched) (event : Event) : Decidable (Bounded state event) :=
  match event with
  | .go tid ok => decidable_of_iff _ (bounded_go_iff state tid ok).symm
  | .appear _ | .call .. | .finish _ => inferInstanceAs (Decidable True)

/-- What a place in the library requires of the slot of the thread that stands there. -/
def Pc.Ok (mySlot : Int32) : Pc → Prop
  | .allocLc slot _ | .allocActive slot _ => slot < maxt
  | .spawn _ slot => ∀ new ∈ slot, new < maxt
  | .loadLc _ _ | .loadCount _ _ _ => 0 ≤ mySlot
  | .advance | .park | .wake | .joinLoad | .joinStore _ | .joinWake | .exit => 0 ≤ mySlot
  | .loadActive _ _ _ n i => 0 ≤ mySlot ∧ n ≤ maxt ∧ 0 ≤ i
  | .loadOther _ _ _ n i => 0 ≤ mySlot ∧ n ≤ maxt ∧ 0 ≤ i ∧ i < n
  | _ => True

structure Thread.Ok (thread : Thread) : Prop where
  below : thread.mySlot < maxt
  place : thread.pc.Ok thread.mySlot

theorem Thread.Ok.move {thread : Thread} (hok : thread.Ok) {pc : Pc} (hplace : pc.Ok thread.mySlot) :
    Thread.Ok { thread with pc } := ⟨hok.below, hplace⟩

/-- The next index of a scan is not past its end. -/
theorem next_in_scan {n i : Int32} (hn : n ≤ maxt) (hi : 0 ≤ i) (hlt : i < n) : 0 ≤ i + 1 := by
  rw [Int32.le_iff_toInt_le] at hn hi ⊢
  rw [Int32.lt_iff_toInt_lt] at hlt
  have hmaxt : maxt.toInt = 1024 := rfl
  have hzero : (0 : Int32).toInt = 0 := rfl
  have hone : (1 : Int32).toInt = 1 := rfl
  have hsum : (i + 1).toInt = i.toInt + 1 := by
    rw [Int32.toInt_add, hone]
    exact Int.bmod_eq_of_le (by omega) (by omega)
  rw [hsum, hzero]
  omega

namespace Sched

def Ok (state : Sched) : Prop := ∀ tid, (state.threads tid).Ok

variable {config : Config} {state : Sched} {tid : Nat} {thread : Thread} {call : Call}

theorem Ok.set (hok : state.Ok) (hthread : thread.Ok) : (state.set tid thread).Ok := by
  intro other
  rw [Sched.set]
  dsimp only
  by_cases hother : other = tid
  · rw [hother, Function.update_self]
    exact hthread
  · rw [Function.update_of_ne hother]
    exact hok other

theorem Ok.allocated (hok : state.Ok) (hthread : thread.Ok) {slot : Int32} (hslot : slot < maxt) :
    (state.allocated tid thread slot call).Ok := by
  cases call with
  | create child =>
      refine hok.set (hthread.move fun new hnew => ?_)
      rwa [← Option.some.inj hnew]
  | _ => exact hok.set ⟨hslot, trivial⟩

theorem Ok.ensureRegistered (hok : state.Ok) (hthread : thread.Ok) :
    (state.ensureRegistered tid thread call).Ok := by
  rw [Sched.ensureRegistered]
  split
  · exact hok.set (hthread.move trivial)
  · exact hok.set (hthread.move trivial)

theorem Ok.begin (hok : state.Ok) (hthread : thread.Ok) :
    (state.begin config tid thread call).Ok := by
  cases call with
  | unlock =>
      rw [Sched.begin]
      split
      · exact hok.set ⟨hthread.below, hthread.place⟩
      · exact hok
  | condWait => exact hok.ensureRegistered hthread
  | join =>
      rw [Sched.begin]
      split
      · exact hok.set (hthread.move trivial)
      · exact hok
  | create child =>
      rw [Sched.begin]
      split
      · exact hok.set (hthread.move trivial)
      · exact hok.set (hthread.move fun new hnew => by cases hnew)
  | lock =>
      rw [Sched.begin]
      split
      · exact hok.ensureRegistered hthread
      · exact hok
  | trylock =>
      rw [Sched.begin]
      split
      · exact hok.ensureRegistered hthread
      · exact hok

/-- A choice between two places. -/
theorem Ok.choose (hok : state.Ok) (hthread : thread.Ok) {condition : Prop} [Decidable condition]
    {own other : Pc} (depth : Nat) (hown : condition → own.Ok thread.mySlot)
    (hother : other.Ok thread.mySlot) :
    (state.set tid
      { thread with pc := if condition then own else other, lockDepth := depth }).Ok := by
  refine hok.set ⟨hthread.below, ?_⟩
  split
  · rename_i hcondition
    exact hown hcondition
  · exact hother

theorem Ok.enter (hok : state.Ok) (hthread : thread.Ok) :
    (state.enter config tid thread call).Ok := by
  have hregistered : (config.enabled && 0 ≤ thread.mySlot) = true → 0 ≤ thread.mySlot := by
    simp
  cases call with
  | condWait => exact hok.choose hthread thread.lockDepth hregistered trivial
  | join => exact hok.choose hthread thread.lockDepth hregistered trivial
  | _ => exact hok.choose hthread thread.lockDepth (fun hgate => hregistered hgate.2) trivial

theorem Ok.retry (hok : state.Ok) (hthread : thread.Ok) (hown : 0 ≤ thread.mySlot) (spins : Nat) :
    (state.retry config tid thread call spins).Ok := by
  rw [Sched.retry]
  split
  · exact hok.set (hthread.move hown)
  · split
    · exact hok.set (hthread.move trivial)
    · exact hok.set (hthread.move hown)

theorem Ok.return_ (hok : state.Ok) (hthread : thread.Ok) (ok : Bool) :
    (state.return_ config tid thread call ok).Ok := by
  have hregistered : (config.enabled && 0 ≤ thread.mySlot) = true → 0 ≤ thread.mySlot := by
    simp
  have hlock : ∀ call : Call, (if call = .trylock ∧ !ok then state.set tid { thread with pc := .app }
      else state.set tid
        { thread with
          lockDepth := thread.lockDepth + 1
          pc := if thread.lockDepth = 0 ∧ (config.enabled && 0 ≤ thread.mySlot) then .advance
            else .app }).Ok := by
    intro call
    split
    · exact hok.set (hthread.move trivial)
    · exact hok.choose hthread _ (fun hgate => hregistered hgate.2) trivial
  cases call with
  | condWait => exact hok.choose hthread thread.lockDepth hregistered trivial
  | join => exact hok.set (hthread.move trivial)
  | lock => exact hlock .lock
  | trylock => exact hlock .trylock
  | unlock => exact hlock .unlock
  | create child => exact hlock (.create child)

theorem Ok.spawn (hok : state.Ok) (hthread : thread.Ok) {child : Nat} {slot : Option Int32}
    (hslot : ∀ new ∈ slot, new < maxt) (ok : Bool) : (state.spawn tid thread child slot ok).Ok := by
  have hself : (state.set tid { thread with pc := .app }).Ok := hok.set (hthread.move trivial)
  rw [Sched.spawn]
  split
  · refine hself.set ⟨?_, trivial⟩
    cases slot with
    | none => exact (by decide : (-1 : Int32) < maxt)
    | some new => exact hslot new rfl
  · exact hself

/-- One step of a thread in the library. -/
theorem Ok.go (hok : state.Ok) {ok : Bool} (hbounded : Bounded state (.go tid ok)) :
    (state.go config tid ok).Ok := by
  have hthread := hok tid
  have hplace := hthread.place
  rw [Sched.go]
  split <;> rename_i hpc <;> rw [hpc] at hplace
  · exact hok
  · exact hok
  · exact hok
  · -- `alloc_slot` fetches a slot.
    have hfetched : ({ state with nextSlot := state.nextSlot + 1 } : Sched).Ok := hok
    split
    · exact hfetched.allocated hthread (by decide)
    · rename_i hlt
      exact hfetched.set (hthread.move (Int32.not_le.mp hlt))
  · exact Ok.set hok (hthread.move hplace)
  · rename_i slot call
    have hstored : (state.storeActive slot true).Ok := hok
    exact hstored.allocated hthread hplace
  · exact hok.enter hthread
  · exact hok.set (hthread.move hplace)
  · -- The gate loads `next_slot`.
    exact hok.set (hthread.move ⟨hplace, hbounded _ _ _ hpc, Int32.le_refl _⟩)
  · obtain ⟨hown, hn, hi⟩ := hplace
    split
    · exact hok.set (hthread.move trivial)
    · rename_i hlt
      have hlt := Int32.not_le.mp hlt
      split
      · exact hok.set (hthread.move ⟨hown, hn, next_in_scan hn hi hlt⟩)
      · exact hok.set (hthread.move ⟨hown, hn, hi, hlt⟩)
  · obtain ⟨hown, hn, hi, hlt⟩ := hplace
    split
    · exact hok.retry hthread hown _
    · exact hok.set (hthread.move ⟨hown, hn, next_in_scan hn hi hlt⟩)
  · exact hok.return_ hthread ok
  · exact Ok.set hok (hthread.move trivial)
  · exact Ok.set hok (hthread.move trivial)
  · exact Ok.set hok (hthread.move hplace)
  · exact hok.set (hthread.move hplace)
  · exact Ok.set hok (hthread.move trivial)
  · exact hok.choose hthread _ (fun hwake => hwake.1) trivial
  · exact Ok.set hok (hthread.move trivial)
  · exact hok.spawn hthread hplace ok
  · exact Ok.set hok (hthread.move trivial)

theorem Ok.step (hok : state.Ok) {event : Event} (hbounded : Bounded state event) :
    (state.step config event).Ok := by
  cases event with
  | appear tid =>
      rw [Sched.step]
      split
      · exact hok.set ⟨by decide, trivial⟩
      · exact hok
  | call tid call =>
      rw [Sched.step]
      split
      · exact hok.begin (hok tid)
      · exact hok
  | finish tid =>
      rw [Sched.step]
      split
      · exact hok.choose (hok tid) _ (fun hexit => hexit.2) trivial
      · exact hok
  | go tid ok => exact hok.go hbounded

theorem init_ok (config : Config) (beyond : Int32 → Int64 × Bool) : (init config beyond).Ok := by
  intro tid
  rw [init]
  dsimp only
  split
  · refine ⟨?_, trivial⟩
    dsimp only
    split <;> decide
  · exact ⟨by decide, trivial⟩

theorem Ok.index (hok : state.Ok) {slot : Int32} (hslot : slot ∈ state.index tid) :
    InRange slot := by
  have hbelow := (hok tid).below
  have hplace := (hok tid).place
  rw [Option.mem_def, Sched.index] at hslot
  split at hslot <;> rename_i hpc
  case h_9 =>
    obtain ⟨-, hn, hi⟩ := hpc ▸ hplace
    split at hslot
    · cases hslot
    · rename_i hstep
      obtain ⟨hlt, -⟩ := not_or.mp hstep
      rw [← Option.some.inj hslot]
      exact ⟨hi, Int32.lt_of_lt_of_le (Int32.not_le.mp hlt) hn⟩
  case h_10 =>
    obtain ⟨-, hn, hi, hlt⟩ := hpc ▸ hplace
    rw [← Option.some.inj hslot]
    exact ⟨hi, Int32.lt_of_lt_of_le hlt hn⟩
  case h_11 => cases hslot
  all_goals
    rw [hpc] at hplace
    rw [← Option.some.inj hslot]
    exact ⟨hplace, hbelow⟩

end Sched

/-- **Slots in range.** Over every run, with any number of threads created, ended and registered at
their first call: as long as no gate wait finds that more slots have been asked for than there are,
every index is in range. -/
theorem index_inRange (config : Config) (beyond : Int32 → Int64 × Bool) (events : List Event)
    (hbounded : Guarded (Sched.step config) Bounded (Sched.init config beyond) events)
    (tid : Nat) (slot : Int32)
    (hslot : slot ∈ (run (Sched.step config) (Sched.init config beyond) events).index tid) :
    InRange slot := by
  have hok := invariant_run Sched.Ok (fun _ _ hbounded hok => hok.step hbounded) hbounded
    (Sched.init_ok config beyond)
  exact hok.index hslot

/-- The main thread creates a thread, another appears and registers at its first lock. The main thread
scans all slots and takes its lock, the other stands in its scan, and the created thread ends. -/
def threeThreads : List Event :=
  .call 0 (.create 1) :: List.replicate 4 (.go 0 true)
    ++ ([.appear 2, .call 2 .lock] ++ List.replicate 3 (.go 2 true)
    ++ (.call 0 .lock :: List.replicate 11 (.go 0 true)
    ++ (List.replicate 6 (.go 2 true) ++ [.finish 1])))

theorem index_inRange_threeThreads :
    let state := run (Sched.step { enabled := true })
      (Sched.init { enabled := true } fun _ => (0, false)) threeThreads
    (state.threads 0).lockDepth = 1 ∧ (state.threads 2).pc = .loadOther .lock 0 0 3 1
      ∧ state.index 1 = some 1 ∧ ∀ tid, ∀ slot ∈ state.index tid, InRange slot := by
  refine ⟨by decide +kernel, by decide +kernel, by decide +kernel, fun tid slot hslot => ?_⟩
  exact index_inRange { enabled := true } (fun _ => (0, false)) threeThreads (by decide +kernel) tid
    slot hslot

/-! ### More threads than slots -/

/-- The main thread stands somewhere with slot 0 and no lock, so many slots have been asked for, and
no clock has moved. -/
structure Main (state : Sched) (pc : Pc) (asked : Nat) : Prop where
  thread : state.threads 0 = { pc, mySlot := 0 }
  asked : state.nextSlot = Int32.ofNat asked
  clocks : ∀ slot, 0 ≤ slot → slot < maxt → state.lc slot = 0

namespace Main

variable {config : Config} {state : Sched} {pc : Pc} {asked child : Nat}
  {call : Call}

theorem set (hmain : Main state pc asked) (pc' : Pc) :
    Main (state.set 0 { pc := pc', mySlot := 0 }) pc' asked := by
  refine ⟨?_, hmain.asked, hmain.clocks⟩
  rw [Sched.set]
  dsimp only
  rw [Function.update_self]

theorem create (henabled : config.enabled = true) (hmain : Main state .app asked) (child : Nat) :
    Main (state.step config (.call 0 (.create child))) (.alloc (.create child)) asked := by
  rw [Sched.step, hmain.thread, if_pos rfl, Sched.begin, if_pos henabled]
  exact hmain.set _

theorem alloc (config : Config) (hmain : Main state (.alloc (.create child)) asked) :
    Main (state.step config (.go 0 true))
      (if maxt ≤ state.nextSlot then .spawn child (some (-1))
        else .allocLc state.nextSlot (.create child)) (asked + 1) := by
  have hfetched : Main { state with nextSlot := state.nextSlot + 1 } (.alloc (.create child))
      (asked + 1) := by
    refine ⟨hmain.thread, ?_, hmain.clocks⟩
    rw [hmain.asked, Int32.ofNat_add]
    rfl
  rw [Sched.step, Sched.go, hmain.thread]
  dsimp only
  split
  · exact hfetched.set _
  · exact hfetched.set _

theorem allocLc (config : Config) {slot : Int32} (hmain : Main state (.allocLc slot call) asked) :
    Main (state.step config (.go 0 true)) (.allocActive slot call) asked := by
  have hstored : Main (state.storeLc slot 0) (.allocLc slot call) asked := by
    refine ⟨hmain.thread, hmain.asked, fun other hlow hhigh => ?_⟩
    rw [Sched.storeLc]
    dsimp only
    rw [Function.update_apply, hmain.clocks other hlow hhigh, ite_self]
  rw [Sched.step, Sched.go, hmain.thread]
  exact hstored.set _

theorem allocActive (config : Config) {slot : Int32}
    (hmain : Main state (.allocActive slot (.create child)) asked) :
    Main (state.step config (.go 0 true)) (.spawn child (some slot)) asked := by
  have hstored : Main (state.storeActive slot true) (.allocActive slot (.create child)) asked :=
    ⟨hmain.thread, hmain.asked, hmain.clocks⟩
  rw [Sched.step, Sched.go, hmain.thread]
  exact hstored.set _

theorem spawn (config : Config) {slot : Option Int32} (hchild : child ≠ 0)
    (hmain : Main state (.spawn child slot) asked) :
    Main (state.step config (.go 0 true)) .app asked := by
  rw [Sched.step, Sched.go, hmain.thread]
  dsimp only
  rw [Sched.spawn]
  split
  · have hback := hmain.set .app
    refine ⟨?_, hback.asked, hback.clocks⟩
    exact (Function.update_of_ne hchild.symm ..).trans hback.thread
  · exact hmain.set .app

/-- A creation asks for one more slot, whether it gets one or not. -/
theorem exists_create (henabled : config.enabled = true) (hmain : Main state .app asked) :
    ∃ events, Main (run (Sched.step config) state events) .app (asked + 1) := by
  have hasks := (hmain.create henabled 1).alloc config
  by_cases hslots : maxt ≤ (state.step config (.call 0 (.create 1))).nextSlot
  · rw [if_pos hslots] at hasks
    exact ⟨[.call 0 (.create 1), .go 0 true, .go 0 true], hasks.spawn config (by decide)⟩
  · rw [if_neg hslots] at hasks
    exact ⟨[.call 0 (.create 1), .go 0 true, .go 0 true, .go 0 true, .go 0 true],
      ((hasks.allocLc config).allocActive config).spawn config (by decide)⟩

theorem exists_creates (henabled : config.enabled = true) (hmain : Main state .app asked)
    (count : Nat) :
    ∃ events, Main (run (Sched.step config) state events) .app (asked + count) := by
  induction count with
  | zero => exact ⟨[], hmain⟩
  | succ count ih =>
      obtain ⟨before, hbefore⟩ := ih
      obtain ⟨after, hafter⟩ := hbefore.exists_create henabled
      refine ⟨before ++ after, ?_⟩
      rwa [run_append]

theorem init (henabled : config.enabled = true) (beyond : Int32 → Int64 × Bool) :
    Main (Sched.init config beyond) .app 1 := by
  refine ⟨?_, ?_, fun slot hlow hhigh => if_pos ⟨hlow, hhigh⟩⟩
  · simp [Sched.init, henabled]
  · simp [Sched.init, henabled]

theorem lock (henabled : config.enabled = true) (hmain : Main state .app asked) :
    Main (state.step config (.call 0 .lock)) (.enter .lock) asked := by
  rw [Sched.step, hmain.thread, if_pos rfl, Sched.begin, if_pos henabled]
  exact hmain.set _

/-- Up to the scan of the gate. -/
theorem gate (henabled : config.enabled = true) (hmain : Main state (.enter .lock) asked) :
    Main (run (Sched.step config) state [.go 0 true, .go 0 true, .go 0 true])
      (.loadActive .lock 0 0 (Int32.ofNat asked) 0) asked := by
  have henter : Main (state.step config (.go 0 true)) (.loadLc .lock 0) asked := by
    rw [Sched.step, Sched.go, hmain.thread]
    dsimp only
    simp only [Sched.enter, henabled]
    exact hmain.set _
  have hclock : ∀ {state : Sched}, Main state (.loadLc .lock 0) asked →
      Main (state.step config (.go 0 true)) (.loadCount .lock 0 0) asked := by
    intro state hmain
    rw [Sched.step, Sched.go, hmain.thread]
    dsimp only
    rw [hmain.clocks 0 (by decide) (by decide)]
    exact hmain.set _
  have hcount : ∀ {state : Sched}, Main state (.loadCount .lock 0 0) asked →
      Main (state.step config (.go 0 true)) (.loadActive .lock 0 0 (Int32.ofNat asked) 0) asked := by
    intro state hmain
    rw [Sched.step, Sched.go, hmain.thread]
    dsimp only
    rw [hmain.asked]
    exact hmain.set _
  exact hcount (hclock henter)

/-- No slot of the array precedes slot 0 as long as no clock has moved, so the scan goes on. -/
theorem exists_next (config : Config) {n i : Int32}
    (hmain : Main state (.loadActive .lock 0 0 n i) asked) (hlt : i < n) (hlow : 0 ≤ i)
    (hhigh : i < maxt) :
    ∃ events, Main (run (Sched.step config) state events) (.loadActive .lock 0 0 n (i + 1))
      asked := by
  by_cases hskip : i = 0 ∨ state.active i = false
  · refine ⟨[.go 0 true], ?_⟩
    rw [run_cons, run_nil, Sched.step, Sched.go, hmain.thread]
    dsimp only
    rw [if_neg (Int32.not_le.mpr hlt), if_pos hskip]
    exact hmain.set _
  · have hother : Main (state.step config (.go 0 true)) (.loadOther .lock 0 0 n i) asked := by
      rw [Sched.step, Sched.go, hmain.thread]
      dsimp only
      rw [if_neg (Int32.not_le.mpr hlt), if_neg hskip]
      exact hmain.set _
    refine ⟨[.go 0 true, .go 0 true], ?_⟩
    rw [run_cons, run_cons, run_nil]
    generalize state.step config (.go 0 true) = scanned at hother ⊢
    have hlater : ¬ (scanned.lc i < 0 ∨ (scanned.lc i = 0 ∧ i < 0)) := by
      rw [hother.clocks i hlow hhigh]
      rintro (hless | ⟨-, hless⟩)
      · exact absurd hless (by decide)
      · exact Int32.not_le.mpr hless hlow
    rw [Sched.step, Sched.go, hother.thread]
    dsimp only
    rw [if_neg hlater]
    exact hother.set _

theorem exists_scanned (config : Config) (hasked : 1024 < asked) (hfits : asked < 2147483648)
    (hmain : Main state (.loadActive .lock 0 0 (Int32.ofNat asked) 0) asked) {i : Nat}
    (hi : i ≤ 1024) :
    ∃ events, Main (run (Sched.step config) state events)
      (.loadActive .lock 0 0 (Int32.ofNat asked) (Int32.ofNat i)) asked := by
  induction i with
  | zero => exact ⟨[], hmain⟩
  | succ i ih =>
      obtain ⟨before, hbefore⟩ := ih (by omega)
      have hto : (Int32.ofNat i).toInt = i := Int32.toInt_ofNat_of_lt (by omega)
      have hasks : (Int32.ofNat asked).toInt = asked := Int32.toInt_ofNat_of_lt (by omega)
      have hlt : Int32.ofNat i < Int32.ofNat asked := by
        rw [Int32.lt_iff_toInt_lt, hto, hasks]
        omega
      have hlow : 0 ≤ Int32.ofNat i := by
        rw [Int32.le_iff_toInt_le, hto]
        exact Int.natCast_nonneg i
      have hhigh : Int32.ofNat i < maxt := by
        rw [Int32.lt_iff_toInt_lt, hto]
        exact (by omega : (i : Int) < 1024)
      obtain ⟨after, hafter⟩ := hbefore.exists_next config hlt hlow hhigh
      refine ⟨before ++ after, ?_⟩
      rw [run_append, Int32.ofNat_add]
      exact hafter

end Main

/-- The main thread creates 1024 threads and takes a lock: the scan of the gate reads the slot after
the last one. -/
theorem scan_leaves_slots : ∃ (config : Config) (beyond : Int32 → Int64 × Bool)
    (events : List Event) (tid : Nat),
    ∃ slot ∈ (run (Sched.step config) (Sched.init config beyond) events).index tid,
      ¬ InRange slot := by
  let config : Config := { enabled := true }
  have henabled : config.enabled = true := rfl
  obtain ⟨creations, hcreated⟩ :=
    (Main.init henabled fun _ => (0, false)).exists_creates henabled 1024
  have hgate := (hcreated.lock henabled).gate henabled
  obtain ⟨scan, hscanned⟩ :=
    hgate.exists_scanned config (by decide) (by decide) (Nat.le_refl 1024)
  refine ⟨config, fun _ => (0, false),
    creations ++ (.call 0 .lock :: ([.go 0 true, .go 0 true, .go 0 true] ++ scan)), 0,
    Int32.ofNat 1024, ?_, fun hin => absurd hin.2 (by decide)⟩
  rw [run_append, run_cons, run_append, Option.mem_def, Sched.index, hscanned.thread]
  rfl

end OneBarrier.Slots
