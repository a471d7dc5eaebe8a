import Mathlib.NumberTheory.LucasPrimality
import RankedKeys.Proofs.Residue

/-!
# Certificates of primality

A number `m` is prime if some class modulo `m` has the order `m - 1`, and that is seen from its
powers at `m - 1` and at the quotients of `m - 1` by its prime factors. The factors are certified
in the same way, down to those that trial division settles.

## Main definitions

* `Certificate`: a number, a class and the prime factors of the number less one
* `Certified`: a list of certificates each of which may rest on the ones before it

## Main results

* `prime_of_certified`: certified numbers are prime
-/

namespace RankedKeys

/-- A number with a class that generates its units, and the factors of the number less one. -/
structure Certificate where
  number : ℕ
  base : ℕ
  factors : List ℕ
  positive : 0 < number := by decide

namespace Certificate

/-- Whether trial division by the numbers below `150` shows that a number is prime. -/
def Small (q : ℕ) : Prop :=
  1 < q ∧ q < 150 * 150 ∧ ∀ d < 150, 1 < d → d < q → q % d ≠ 0

instance (q : ℕ) : Decidable (Small q) :=
  inferInstanceAs (Decidable (1 < q ∧ q < 150 * 150 ∧ ∀ d < 150, 1 < d → d < q → q % d ≠ 0))

theorem Small.prime {q : ℕ} (h : Small q) : q.Prime := by
  obtain ⟨hone, hlt, htrial⟩ := h
  rw [Nat.prime_def_le_sqrt]
  refine ⟨hone, fun d hd hle hdvd => ?_⟩
  have hsq : d * d ≤ q := Nat.le_sqrt.mp hle
  -- A divisor up to the square root is among the numbers that were tried.
  have hd150 : d < 150 := by
    by_contra hge
    have := Nat.mul_le_mul (not_lt.mp hge) (not_lt.mp hge)
    omega
  have hdq : d < q := by
    have := Nat.mul_le_mul_right d hd
    omega
  exact htrial d hd150 hd hdq (Nat.mod_eq_zero_of_dvd hdvd)

instance (cert : Certificate) : Modulus cert.number := ⟨cert.positive⟩

/-- Whether a certificate holds, given numbers that are known to be prime. -/
def Holds (known : List ℕ) (cert : Certificate) : Prop :=
  cert.factors.prod = cert.number - 1 ∧
    (∀ q ∈ cert.factors, q ∈ known ∨ Small q) ∧
    (cert.base : Residue cert.number) ^ (cert.number - 1) = 1 ∧
    ∀ q ∈ cert.factors, (cert.base : Residue cert.number) ^ ((cert.number - 1) / q) ≠ 1

instance (known : List ℕ) (cert : Certificate) : Decidable (cert.Holds known) :=
  inferInstanceAs (Decidable (_ ∧ _ ∧ _ ∧ _))

theorem Holds.prime {known : List ℕ} {cert : Certificate} (h : cert.Holds known)
    (hknown : ∀ q ∈ known, q.Prime) : cert.number.Prime := by
  obtain ⟨hprod, hfactors, hone, hne⟩ := h
  -- The powers were taken on least representatives.
  have power : ∀ k, (((cert.base : Residue cert.number) ^ k : Residue cert.number)).toZMod =
      (cert.base : ZMod cert.number) ^ k := by
    intro k
    rw [Residue.toZMod_pow, Residue.toZMod_natCast]
  refine lucas_primality cert.number (cert.base : ZMod cert.number) ?_ fun r hr hdvd => ?_
  · rw [← power, hone, Residue.toZMod_one]
  -- A prime factor of the product is one of the factors, since these are prime.
  · rw [← hprod] at hdvd
    obtain ⟨q, hq, hrq⟩ := (hr.prime.dvd_prod_iff).mp hdvd
    have hqprime : q.Prime := by
      rcases hfactors q hq with hq | hq
      · exact hknown q hq
      · exact hq.prime
    obtain rfl : r = q := (Nat.prime_dvd_prime_iff_eq hr hqprime).mp hrq
    rw [← power, ← Residue.toZMod_one]
    exact fun h => hne r hq (Residue.toZMod_injective h)

end Certificate

/-- A list of certificates each of which may rest on the ones before it. -/
def Certified : List ℕ → List Certificate → Prop
  | _, [] => True
  | known, cert :: certs => cert.Holds known ∧ Certified (cert.number :: known) certs

/-- Decides a list of certificates one by one. -/
def Certified.decide : (known : List ℕ) → (certs : List Certificate) →
    Decidable (Certified known certs)
  | _, [] => .isTrue trivial
  | known, cert :: certs =>
    have := Certified.decide (cert.number :: known) certs
    inferInstanceAs (Decidable (cert.Holds known ∧ Certified (cert.number :: known) certs))

instance (known : List ℕ) (certs : List Certificate) : Decidable (Certified known certs) :=
  Certified.decide known certs

/-- **Certified numbers are prime.** -/
theorem prime_of_certified {known : List ℕ} {certs : List Certificate}
    (h : Certified known certs) (hknown : ∀ q ∈ known, q.Prime) :
    ∀ cert ∈ certs, cert.number.Prime := by
  induction certs generalizing known with
  | nil => exact fun cert hmem => absurd hmem (List.not_mem_nil)
  | cons cert certs ih =>
    obtain ⟨hcert, hcerts⟩ := h
    -- The certificates that follow may rest on this number too.
    have hprime := hcert.prime hknown
    intro cert' hmem
    rcases List.mem_cons.mp hmem with rfl | hmem
    · exact hprime
    · refine ih hcerts (fun q hq => ?_) cert' hmem
      rcases List.mem_cons.mp hq with rfl | hq
      · exact hprime
      · exact hknown q hq

/-- A number that is certified from nothing is prime. -/
theorem prime_of_mem_certified {certs : List Certificate} (h : Certified [] certs) {number : ℕ}
    (hmem : number ∈ certs.map (·.number)) : number.Prime := by
  obtain ⟨cert, hcert, rfl⟩ := List.mem_map.mp hmem
  exact prime_of_certified h (fun q hq => absurd hq List.not_mem_nil) cert hcert

end RankedKeys
