import Courier.Time.Instant
import Mathlib.Order.Defs.LinearOrder

/-!
Instants: their order is linear, and each is made of its day and its second of the day.

An instant is a second since 1970 with nanoseconds, which go beyond a second during a leap second.
The order is that of the seconds and then of the nanoseconds, so a leap second comes before the
second after it.
-/

namespace Courier.Time.Instant

instance : LinearOrder Instant where
  le_refl a := by
    rw [le_iff]
    omega
  le_trans a b c hab hbc := by
    rw [le_iff] at *
    omega
  lt_iff_le_not_ge a b := by
    rw [lt_iff, le_iff, le_iff]
    omega
  le_antisymm a b hab hba := by
    rw [le_iff] at hab hba
    obtain ⟨sa, na⟩ := a
    obtain ⟨sb, nb⟩ := b
    simp only [mk.injEq] at *
    omega
  le_total a b := by
    rw [le_iff, le_iff]
    omega
  toDecidableLE := inferInstance
  toDecidableLT := inferInstance
  toDecidableEq := inferInstance

theorem secondOfDay_lt (a : Instant) : a.secondOfDay < 86400 := by
  have hlt : a.seconds % daySeconds < daySeconds := Int.emod_lt_of_pos _ (by decide)
  unfold daySeconds at hlt
  unfold secondOfDay daySeconds
  omega

theorem days_add_secondOfDay (a : Instant) :
    a.days * daySeconds + (a.secondOfDay : Int) = a.seconds := by
  unfold days secondOfDay daySeconds
  omega

end Courier.Time.Instant
