import GameArchive.Proofs.Regions
import Mathlib.Algebra.Order.BigOperators.Group.List
import Mathlib.Algebra.Order.Group.Nat
/-!
# Arithmetic on words

Positions and lengths are kept in words, whose sums and products are taken modulo `wordLimit`. A
computation on words goes on only while each of them is the sum or product of the numbers, so one
that comes to an end has not wrapped on the way.

Bounds are written out, `wordLimit` as `0x10000000000000000` and the size that buffers stay below as
`0x4000000000000000`, so that they take part in linear arithmetic.
-/
namespace GameArchive

/-- What a computation on words comes to: nothing once a sum or a product has wrapped. -/
abbrev OnWords := ExceptT Error Option

namespace OnWords

variable {α β γ : Type} {f : OnWords α} {x : Except Error α} {k : α → OnWords β}
  {g : α → Except Error β}

theorem run_pure (a : α) : (pure a : OnWords α).run = some (.ok a) := rfl

theorem run_throw (e : Error) : (throw e : OnWords α).run = some (.error e) := rfl

theorem run_bind (hf : f.run = some x) (hk : ∀ a, x = .ok a → (k a).run = some (g a)) :
    (f >>= k).run = some (x >>= g) := by
  obtain rfl : f = liftM x := hf
  cases x with
  | error e => rfl
  | ok a => exact hk a rfl

theorem run_bind_ok {a : α} {y : Except Error β} (hf : f.run = some (.ok a))
    (hk : (k a).run = some y) : (f >>= k).run = some y := by
  obtain rfl : f = pure a := hf
  exact hk

theorem run_bind_error {e : Error} (hf : f.run = some (.error e)) :
    (f >>= k).run = some (.error e) := by
  obtain rfl : f = throw e := hf
  rfl

section Branches

variable {c : Prop} [Decidable c] {f' : OnWords α} {x' : Except Error α}

theorem run_if_pos (h : c) (hf : f.run = some x) : (if c then f else f').run = some x := by
  rw [if_pos h, hf]

theorem run_if_neg (h : ¬ c) (hf : f'.run = some x) : (if c then f else f').run = some x := by
  rw [if_neg h, hf]

theorem run_ite (hf : c → f.run = some x) (hf' : ¬ c → f'.run = some x') :
    (if c then f else f').run = some (if c then x else x') := by
  split
  case isTrue h => exact hf h
  case isFalse h => exact hf' h

end Branches

/-- What succeeds for each element of a list succeeds for the list. -/
theorem run_mapM {f : γ → OnWords α} {g : γ → α} (list : List γ)
    (h : ∀ c ∈ list, (f c).run = some (.ok (g c))) :
    (list.mapM f).run = some (.ok (list.map g)) := by
  induction list with
  | nil => rfl
  | cons c rest ih =>
    obtain ⟨hc, hrest⟩ := List.forall_mem_cons.mp h
    rw [List.mapM_cons]
    exact run_bind_ok hc (run_bind_ok (ih hrest) rfl)

end OnWords

namespace Word

/-- A number modulo the bound of words, if that is the number itself. That it is so goes along with
it, for a position that has moved on shows that a loop ends. -/
def exact (n : Nat) : OnWords { m : Nat // m = n } :=
  if h : n % wordLimit = n then pure ⟨n % wordLimit, h⟩ else liftM (none : Option { m // m = n })

/-- The sum of two words. -/
def add (a b : Nat) : OnWords { n : Nat // n = a + b } :=
  exact (a + b)

/-- The product of two words. -/
def mul (a b : Nat) : OnWords { n : Nat // n = a * b } :=
  exact (a * b)

/-- The sum of two signed words. -/
def addSigned (a b : Int) : OnWords { v : Int // v = a + b } :=
  if h : toSigned 8 (ofSigned 8 (a + b)) = a + b then pure ⟨toSigned 8 (ofSigned 8 (a + b)), h⟩
  else liftM (none : Option { v // v = a + b })

/-- The sum of words added up one after another, on top of `total`. -/
def sum (total : Nat) : List Nat → OnWords Nat
  | [] => pure total
  | n :: rest => do
    let ⟨total, _⟩ ← add total n
    sum total rest

theorem run_exact {n : Nat} (h : n < wordLimit) : (exact n).run = some (.ok ⟨n, rfl⟩) := by
  have hmod : n % wordLimit = n := Nat.mod_eq_of_lt h
  rw [exact, dif_pos hmod, OnWords.run_pure]
  simp only [hmod]

variable {α : Type} {a b : Nat}

/-- A sum of words that does not reach their bound is the sum of the numbers. -/
theorem run_add {k : { n // n = a + b } → OnWords α} {x : Except Error α}
    (h : a + b < 0x10000000000000000) (hk : (k ⟨a + b, rfl⟩).run = some x) :
    (add a b >>= k).run = some x :=
  OnWords.run_bind_ok (run_exact h) hk

/-- One more than the last word is none. -/
example : (add (wordLimit - 1) 1).run = none := by cbv

/-- A product of words that does not reach their bound is the product of the numbers. -/
theorem run_mul {k : { n // n = a * b } → OnWords α} {x : Except Error α}
    (h : a * b < 0x10000000000000000) (hk : (k ⟨a * b, rfl⟩).run = some x) :
    (mul a b >>= k).run = some x :=
  OnWords.run_bind_ok (run_exact h) hk

theorem run_addSigned {v w : Int} {k : { u // u = v + w } → OnWords α} {x : Except Error α}
    (h : IsSigned 8 (v + w)) (hk : (k ⟨v + w, rfl⟩).run = some x) :
    (addSigned v w >>= k).run = some x := by
  have hexact := toSigned_ofSigned h
  have hsum : (addSigned v w).run = some (.ok ⟨v + w, rfl⟩) := by
    rw [addSigned, dif_pos hexact, OnWords.run_pure]
    simp only [hexact]
  exact OnWords.run_bind_ok hsum hk

/-- No sum on the way to the last one is greater than that. -/
theorem run_sum {total : Nat} {ns : List Nat}
    (h : total + ns.foldr (· + ·) 0 < 0x10000000000000000) :
    (sum total ns).run = some (.ok (total + ns.foldr (· + ·) 0)) := by
  induction ns generalizing total with
  | nil => rfl
  | cons n rest ih =>
    rw [List.foldr_cons, ← Nat.add_assoc] at h ⊢
    exact run_add (by omega) (ih h)

/-- Words of which none is greater than `bound` add up to no more than that for each. -/
theorem run_sum_of_le {ns : List Nat} {bound : Nat} (h : ∀ n ∈ ns, n ≤ bound)
    (hlimit : ns.length * bound < 0x10000000000000000) :
    (sum 0 ns).run = some (.ok (ns.foldr (· + ·) 0)) := by
  have hsum : ns.foldr (· + ·) 0 ≤ ns.length * bound := List.sum_le_card_nsmul ns bound h
  have hrun := run_sum (by omega : 0 + ns.foldr (· + ·) 0 < 0x10000000000000000)
  rwa [Nat.zero_add] at hrun

end Word
end GameArchive
