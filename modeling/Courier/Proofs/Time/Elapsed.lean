import Courier.Proofs.Time.Order
import Courier.Time.Timed

/-!
Instants outside of leap seconds, as nanoseconds.

Such instants (`Instant.Ordinary`) are ordered by their nanoseconds since 1970 (`Instant.total`).
Adding a length of time and taking the length between two of them are addition and subtraction there
(`Instant.Ordinary.total_plus`, `Instant.Ordinary.since_eq`), so the one undoes the other
(`Instant.Ordinary.plus_since`).

Inside a leap second this is not so: its nanoseconds go beyond a second, so that instants in it come
before those of the next second while their totals do not.
-/

namespace Courier.Time.Instant

/-- Whether an instant does not lie within a leap second. -/
def Ordinary (a : Instant) : Prop := a.nanos < nanosPerSecond

instance (a : Instant) : Decidable a.Ordinary := by unfold Ordinary; infer_instance

/-- The nanoseconds since 1970. -/
def total (a : Instant) : Int := a.seconds * nanosPerSecond + a.nanos

namespace Ordinary

variable {a b : Instant}

theorem isLeap_eq (ha : a.Ordinary) : a.isLeap = false := decide_eq_false (Nat.not_le.mpr ha)

theorem lt_iff (ha : a.Ordinary) (hb : b.Ordinary) : a < b ↔ a.total < b.total := by
  rw [Instant.lt_iff]
  unfold Ordinary total nanosPerSecond at *
  omega

theorem le_iff (ha : a.Ordinary) (hb : b.Ordinary) : a ≤ b ↔ a.total ≤ b.total := by
  rw [Instant.le_iff]
  unfold Ordinary total nanosPerSecond at *
  omega

theorem eq_of_total (ha : a.Ordinary) (hb : b.Ordinary) (h : a.total = b.total) : a = b :=
  le_antisymm ((ha.le_iff hb).mpr (Int.le_of_eq h)) ((hb.le_iff ha).mpr (Int.le_of_eq h.symm))

/-- Time that passes is added to the nanoseconds. -/
theorem total_plus (ha : a.Ordinary) (n : Nat) :
    (a.plus n).Ordinary ∧ (a.plus n).total = a.total + n := by
  have hplus : a.plus n =
      ⟨a.seconds + (n / nanosPerSecond : Nat) +
        ((a.nanos + n % nanosPerSecond) / nanosPerSecond : Nat),
        (a.nanos + n % nanosPerSecond) % nanosPerSecond⟩ := by
    simp only [plus, ha.isLeap_eq, Bool.false_eq_true, false_and, if_false]
  rw [hplus]
  unfold Ordinary total nanosPerSecond at *
  dsimp only
  omega

/-- The time between two instants is the difference of the nanoseconds. -/
theorem since_eq (ha : a.Ordinary) (hb : b.Ordinary) : a.since b = a.total - b.total := by
  have hleap : ¬(a.seconds % daySeconds > b.seconds % daySeconds ∧ b.isLeap = true) := by
    simp [hb.isLeap_eq]
  have hleap' : ¬(a.seconds % daySeconds < b.seconds % daySeconds ∧ a.isLeap = true) := by
    simp [ha.isLeap_eq]
  simp only [since, if_neg hleap, if_neg hleap']
  unfold total nanosPerSecond
  omega

/-- As much later as another instant is away, it is the other instant. -/
theorem plus_since (ha : a.Ordinary) (hb : b.Ordinary) (h : b ≤ a) :
    b.plus (a.since b).toNat = a := by
  obtain ⟨hordinary, htotal⟩ := hb.total_plus (a.since b).toNat
  refine hordinary.eq_of_total ha ?_
  rw [hb.le_iff ha] at h
  rw [htotal, ha.since_eq hb]
  omega

end Ordinary

end Courier.Time.Instant
