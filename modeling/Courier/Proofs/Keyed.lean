import Mathlib.Data.List.Nodup

/-!
Tables as lists of pairs.

Registrations, cron entries and workers are kept in lists of keys with values.  Such a list is a
table when it is `Keyed`: no key comes twice.  This is a property of the list and not a type of its
own, since the program works on the lists; every module that has such a list shows that its steps
keep it, with `Keyed.filter` where something is dropped and `Keyed.concat` where something is added.

Main statements: the look-up in a table finds just the pairs that are in it (`mem_of_lookup`,
`Keyed.lookup_of_mem`), and dropping keys is dropping what is found under them
(`lookup_filter_key`).
-/

namespace Courier

variable {α β : Type}

/-- Whether no key comes twice. -/
def Keyed (t : List (α × β)) : Prop := (t.map Prod.fst).Nodup

theorem keyed_nil : Keyed ([] : List (α × β)) := List.nodup_nil

theorem Keyed.of_sublist {t t' : List (α × β)} (h : Keyed t) (ht : t'.Sublist t) : Keyed t' :=
  h.sublist (ht.map _)

theorem Keyed.filter {t : List (α × β)} (h : Keyed t) (p : α × β → Bool) : Keyed (t.filter p) :=
  h.of_sublist List.filter_sublist

theorem keyed_cons {k : α} {v : β} {t : List (α × β)} :
    Keyed ((k, v) :: t) ↔ k ∉ t.map Prod.fst ∧ Keyed t :=
  List.nodup_cons

variable [BEq α] [LawfulBEq α]

theorem lookup_eq_none_iff_not_mem_keys {t : List (α × β)} {k : α} :
    t.lookup k = none ↔ k ∉ t.map Prod.fst := by
  rw [List.lookup_eq_none_iff]
  constructor
  · intro h hk
    obtain ⟨p, hp, rfl⟩ := List.mem_map.mp hk
    simpa using h p hp
  · intro h p hp
    simpa using fun hk : k = p.1 => h (hk ▸ List.mem_map_of_mem hp)

theorem mem_keys_iff_isSome {t : List (α × β)} {k : α} :
    k ∈ t.map Prod.fst ↔ (t.lookup k).isSome := by
  rw [← not_iff_not, ← lookup_eq_none_iff_not_mem_keys, Option.not_isSome_iff_eq_none]

theorem mem_of_lookup {t : List (α × β)} {k : α} {v : β} (h : t.lookup k = some v) :
    (k, v) ∈ t := by
  obtain ⟨t₁, t₂, rfl, -⟩ := List.lookup_eq_some_iff.mp h
  exact List.mem_append_right _ List.mem_cons_self

theorem Keyed.lookup_of_mem {t : List (α × β)} (h : Keyed t) {k : α} {v : β}
    (hv : (k, v) ∈ t) : t.lookup k = some v := by
  induction t with
  | nil => exact absurd hv List.not_mem_nil
  | cons p t ih =>
    obtain ⟨k', v'⟩ := p
    obtain ⟨hk', ht⟩ := keyed_cons.mp h
    rcases List.mem_cons.mp hv with heq | hv
    · obtain ⟨rfl, rfl⟩ := Prod.mk.inj heq
      exact List.lookup_cons_self
    · -- the key is found further on, so it is not the first one
      have hne : (k == k') = false := by
        simpa using fun hk : k = k' => hk' (hk ▸ List.mem_map_of_mem hv)
      rw [List.lookup_cons, hne]
      exact ih ht hv

/-- Keys that are dropped are no longer found, all others are found as before. -/
theorem lookup_filter_key (p : α → Bool) (t : List (α × β)) (k : α) :
    (t.filter fun x => p x.1).lookup k = if p k then t.lookup k else none := by
  induction t with
  | nil => simp
  | cons x t ih =>
    obtain ⟨k', v⟩ := x
    rw [List.lookup_cons]
    -- the key is that of the first pair, which stays or is dropped
    by_cases hk : k = k'
    · subst hk
      by_cases hp : p k = true
      · simp [hp]
      · simpa [List.filter_cons, hp] using ih
    · -- another key is found further on either way
      have hne : (k == k') = false := by simpa using hk
      by_cases hp : p k' = true
      · simpa [List.filter_cons, hp, List.lookup_cons, hne] using ih
      · simpa [List.filter_cons, hp, hne] using ih

theorem Keyed.concat {t : List (α × β)} (h : Keyed t) {k : α} (v : β) (hk : t.lookup k = none) :
    Keyed (t ++ [(k, v)]) := by
  rw [Keyed, List.map_append]
  refine List.nodup_append.mpr ⟨h, by simp, ?_⟩
  intro a ha b hb
  obtain rfl : b = k := by simpa using hb
  exact fun hab => lookup_eq_none_iff_not_mem_keys.mp hk (hab ▸ ha)

/-- Of things with distinct keys, each is the one that is found under its key. -/
theorem find?_key_of_mem {γ κ : Type} [DecidableEq κ] {key : γ → κ} {l : List γ}
    (h : (l.map key).Nodup) {x : γ} (hx : x ∈ l) : (l.find? fun y => key y = key x) = some x := by
  rcases hfind : l.find? fun y => key y = key x with - | y
  · exact absurd (List.find?_eq_none.mp hfind x hx) (by simp)
  · have hkey : key y = key x := by simpa using List.find?_some hfind
    rw [List.inj_on_of_nodup_map h (List.mem_of_find?_eq_some hfind) hx hkey]

end Courier
