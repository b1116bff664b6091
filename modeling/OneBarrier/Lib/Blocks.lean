import Mathlib.Algebra.Order.Group.Nat
import Mathlib.Logic.Function.Iterate

/-!
# Block generators

A generator that hands out items a block at a time, and a consumer that asks for any number of them.
What is left of the last block is thrown away, so the split of a request into pieces shows, unless
every piece but the last is made of whole blocks.
-/

universe u v

/-- A generator with state `σ`, whose blocks all have the same positive width. -/
structure BlockGenerator (σ : Type u) (α : Type v) where
  width : Nat
  width_pos : 0 < width
  next : σ → List α × σ
  length_next : ∀ state, (next state).1.length = width

namespace BlockGenerator

variable {σ : Type u} {α : Type v} (gen : BlockGenerator σ α)

def step (state : σ) : σ := (gen.next state).2

/-- The first so many blocks. -/
def blocks : Nat → σ → List α
  | 0, _ => []
  | count + 1, state => (gen.next state).1 ++ blocks count (gen.step state)

theorem length_blocks (count : Nat) (state : σ) :
    (gen.blocks count state).length = count * gen.width := by
  induction count generalizing state with
  | zero => simp [blocks]
  | succ count ih =>
      rw [blocks, List.length_append, gen.length_next, ih, Nat.succ_mul]
      omega

theorem blocks_add (first second : Nat) (state : σ) :
    gen.blocks (first + second) state
      = gen.blocks first state ++ gen.blocks second (gen.step^[first] state) := by
  induction first generalizing state with
  | zero => simp [blocks]
  | succ first ih =>
      rw [Nat.succ_add, blocks, blocks, ih, List.append_assoc, Function.iterate_succ_apply]

/-- The number of blocks it takes to hand out `n` items. -/
def needed (n : Nat) : Nat := (n + (gen.width - 1)) / gen.width

/-- `n` items, and the state after the blocks they were taken from. -/
def drain (n : Nat) (state : σ) : List α × σ :=
  ((gen.blocks (gen.needed n) state).take n, gen.step^[gen.needed n] state)

theorem needed_mul (count : Nat) : gen.needed (gen.width * count) = count := by
  have hpos := gen.width_pos
  rw [needed, Nat.mul_add_div hpos, Nat.div_eq_of_lt (by omega), Nat.add_zero]

theorem needed_mul_add (count n : Nat) :
    gen.needed (gen.width * count + n) = count + gen.needed n := by
  rw [needed, needed, Nat.add_assoc, Nat.mul_add_div gen.width_pos]

theorem le_needed_mul (n : Nat) : n ≤ gen.needed n * gen.width := by
  have hpos := gen.width_pos
  have hdiv := Nat.div_add_mod (n + (gen.width - 1)) gen.width
  have hmod := Nat.mod_lt (n + (gen.width - 1)) hpos
  rw [needed, Nat.mul_comm]
  omega

@[simp]
theorem length_drain (n : Nat) (state : σ) : (gen.drain n state).1.length = n := by
  rw [drain, List.length_take, length_blocks]
  exact Nat.min_eq_left (gen.le_needed_mul n)

@[simp]
theorem drain_zero (state : σ) : gen.drain 0 state = ([], state) := by
  have hneeded : gen.needed 0 = 0 := gen.needed_mul 0
  rw [drain, hneeded, List.take_zero, Function.iterate_zero, id]

/-- A request may be split after whole blocks. -/
theorem drain_add {first : Nat} (hwhole : gen.width ∣ first) (second : Nat) (state : σ) :
    gen.drain (first + second) state
      = ((gen.drain first state).1 ++ (gen.drain second (gen.drain first state).2).1,
          (gen.drain second (gen.drain first state).2).2) := by
  obtain ⟨count, rfl⟩ := hwhole
  have hlength : (gen.blocks count state).length = gen.width * count := by
    rw [length_blocks, Nat.mul_comm]
  have hfirst : (gen.drain (gen.width * count) state).1 = gen.blocks count state := by
    rw [drain, needed_mul, List.take_of_length_le hlength.le]
  have hstate : (gen.drain (gen.width * count) state).2 = gen.step^[count] state := by
    rw [drain, needed_mul]
  rw [hfirst, hstate, drain, needed_mul_add, blocks_add, drain]
  congr 1
  · rw [← hlength, List.take_length_add_append]
  · rw [Nat.add_comm, Function.iterate_add_apply]

/-- One turn of a loop that takes a block, keeps at most what is still missing, and goes on. -/
theorem drain_turn {n : Nat} (hn : 0 < n) (state : σ) :
    gen.drain n state
      = ((gen.next state).1.take (min n gen.width)
            ++ (gen.drain (n - min n gen.width) (gen.step state)).1,
          (gen.drain (n - min n gen.width) (gen.step state)).2) := by
  have hpos := gen.width_pos
  have hblock : gen.blocks 1 state = (gen.next state).1 := by simp [blocks]
  by_cases hwide : n ≤ gen.width
  · have hneeded : gen.needed n = 1 := by
      rw [needed]
      exact Nat.div_eq_of_lt_le (by omega) (by omega)
    rw [Nat.min_eq_left hwide, Nat.sub_self, drain_zero, drain, hneeded, hblock, List.append_nil,
      Function.iterate_one]
  · have hone : gen.needed gen.width = 1 := by simpa using gen.needed_mul 1
    have hfirst : gen.drain gen.width state = ((gen.next state).1, gen.step state) := by
      rw [drain, hone, hblock, Function.iterate_one,
        List.take_of_length_le (gen.length_next state).le]
    have hsplit : gen.width + (n - gen.width) = n := by omega
    have hadd := gen.drain_add (Nat.dvd_refl gen.width) (n - gen.width) state
    rw [hsplit, hfirst] at hadd
    rw [Nat.min_eq_right (by omega), hadd, List.take_of_length_le (gen.length_next state).le]

end BlockGenerator
