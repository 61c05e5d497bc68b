import Courier.Proofs.Json.Reading
import Mathlib.Data.List.Nodup

/-!
Strings, lists and records that are read from values.

A record is read from an object by the names of its fields, or from an array by their places:
`Value.part` is what stands for a field there.

A draft keeps a field (`Read.Keeps`) if it holds what is read for the field and no other field
changes that.  Fields are told apart by their names, so these have to be different.  Then what a
draft holds for a field in the end was put there once: by the member of that name, as a second one
would be an error (`Keeps.get_fillNamed`), or by the item at that place (`Keeps.get_fillPlaced`).
The draft goes through the fields in the order of the members, so the first of these two is proved
for any draft to begin with, and says that a field which is there already stays.

Main statement: the draft that a record is made of holds for each field that it keeps what is read
from the part that stands for it (`Read.exists_draft`).
-/

namespace Courier.Json

/-- What stands for a field of a record: the member of its name or the item at its place. -/
def Value.part (name : String) (place : Nat) : Value → Option Value
  | .object members => Members.get? name members
  | .array items => items[place]?
  | _ => none

namespace Read

/-! ### Readers of values -/

theorem string_eq_ok {v : Value} {s : String} : string v = .ok s ↔ v = .string s := by
  constructor
  · intro h
    cases v <;> cases h
    rfl
  · rintro rfl
    rfl

/-- Besides null, what is there is what the reader takes, if it does not take null. -/
theorem optional_eq_ok {α : Type} {read : Value → Except DecodeError α} {v : Value} {a : α}
    (hnull : read .null ≠ .ok a) :
    optional read v = .ok (some a) ↔ read v = .ok a := by
  cases v with
  | null =>
    constructor
    · intro h
      cases h
    · exact fun h => absurd h hnull
  | _ =>
    show (read _ >>= fun b => Except.ok (some b)) = .ok (some a) ↔ read _ = .ok a
    simp [bind_eq_ok]

theorem optional_string_eq_ok {v : Value} {s : String} :
    optional string v = .ok (some s) ↔ v = .string s :=
  (optional_eq_ok (by simp [string_eq_ok])).trans string_eq_ok

/-- A list is read item by item. -/
theorem forall₂_of_mapM {α β ε : Type} {f : α → Except ε β} {xs : List α} {ys : List β}
    (h : xs.mapM f = .ok ys) : List.Forall₂ (fun x y => f x = .ok y) xs ys := by
  induction xs generalizing ys with
  | nil =>
    cases h
    exact .nil
  | cons x xs ih =>
    rw [List.mapM_cons] at h
    obtain ⟨y, hy, h⟩ := bind_eq_ok.mp h
    obtain ⟨zs, hzs, h⟩ := bind_eq_ok.mp h
    cases h
    exact .cons hy (ih hzs)

theorem exists_of_list {α : Type} {read : Value → Except DecodeError α} {v : Value} {xs : List α}
    (h : list read v = .ok xs) :
    ∃ items, v = .array items ∧ List.Forall₂ (fun w x => read w = .ok x) items xs := by
  cases v with
  | array items =>
    obtain ⟨_, hview, h⟩ := bind_eq_ok.mp h
    cases hview
    obtain ⟨_, -, h⟩ := bind_eq_ok.mp h
    obtain ⟨ys, hys, h⟩ := bind_eq_ok.mp h
    cases h
    exact ⟨items, rfl, forall₂_of_mapM hys⟩
  | _ => cases h

theorem exists_of_map {α : Type} {read : Value → Except DecodeError α} {v : Value}
    {ms : List (String × α)} (h : map read v = .ok ms) :
    ∃ members pairs, v = .object members ∧ ms = Members.ofList pairs ∧
      List.Forall₂ (fun m p => m.1 = p.1 ∧ read m.2 = .ok p.2) members pairs := by
  cases v with
  | object members =>
    obtain ⟨_, hview, h⟩ := bind_eq_ok.mp h
    cases hview
    obtain ⟨_, -, h⟩ := bind_eq_ok.mp h
    obtain ⟨pairs, hpairs, h⟩ := bind_eq_ok.mp h
    cases h
    refine ⟨members, pairs, rfl, rfl, ?_⟩
    refine (List.forall₂_map_left_iff.mp (forall₂_of_mapM hpairs)).imp ?_
    rintro ⟨k, w⟩ p hp
    obtain ⟨_, hk, hp⟩ := bind_eq_ok.mp hp
    cases hk
    obtain ⟨x, hx, hp⟩ := bind_eq_ok.mp hp
    cases hp
    exact ⟨rfl, hx⟩
  | _ => cases h

/-! ### Records -/

variable {α β σ : Type} {fields : List (Field Value σ)} {place : Nat} {f : Field Value σ}
  {get : σ → Option β} {read : Value → Except DecodeError β}

/-- What is read for the field at this place is kept in the draft, and no other field changes it. -/
structure Keeps (fields : List (Field Value σ)) (place : Nat) (f : Field Value σ)
    (get : σ → Option β) (read : Value → Except DecodeError β) : Prop where
  names : (fields.map Field.name).Nodup
  at_place : fields[place]? = some f
  filled : ∀ d, f.filled d = (get d).isSome
  own : ∀ v d d', f.fill v d = .ok d' → ∃ b, read v = .ok b ∧ get d' = some b
  others : ∀ g ∈ fields, g.name ≠ f.name → ∀ v d d', g.fill v d = .ok d' → get d' = get d

theorem Keeps.eq_of_name (h : Keeps fields place f get read) {g : Field Value σ} (hg : g ∈ fields)
    (hname : g.name = f.name) : g = f :=
  List.inj_on_of_nodup_map h.names hg (List.mem_of_getElem? h.at_place) hname

/-- The member of the field's name is what is kept, unless the draft has the field already. -/
theorem Keeps.get_fillNamed (h : Keeps fields place f get read) {members : List (String × Value)}
    {d d' : σ} (hfill : fillNamed fields (members.map fun (k, v) => (.ok k, v)) d = .ok d') (b : β) :
    get d' = some b ↔
      get d = some b ∨ get d = none ∧ ∃ v, Members.get? f.name members = some v ∧ read v = .ok b := by
  induction members generalizing d with
  | nil =>
    obtain rfl := Except.ok.inj hfill
    simp
  | cons m ms ih =>
    obtain ⟨k, v⟩ := m
    rw [List.map_cons, fillNamed, ok_bind] at hfill
    rw [Members.get?]
    rcases hfind : fields.find? (fun g => g.name == k) with - | g <;> rw [hfind] at hfill
    · -- a member without a field is not the one that is looked for
      have hk : k ≠ f.name := by
        rintro rfl
        exact absurd (beq_self_eq_true f.name)
          (List.find?_eq_none.mp hfind f (List.mem_of_getElem? h.at_place))
      obtain ⟨_, -, hfill⟩ := bind_eq_ok.mp hfill
      rw [if_neg hk]
      exact ih hfill
    · have hg : g ∈ fields := List.mem_of_find?_eq_some hfind
      obtain rfl : g.name = k := by simpa using List.find?_some hfind
      dsimp only at hfill
      split at hfill
      · cases hfill
      next hfilled =>
      obtain ⟨e, he, hfill⟩ := bind_eq_ok.mp hfill
      by_cases hname : g.name = f.name
      · -- this is the field, which the draft does not have yet
        obtain rfl := h.eq_of_name hg hname
        obtain ⟨c, hc, hkept⟩ := h.own v d e he
        have hnone : get d = none := by simpa [h.filled] using hfilled
        rw [ih hfill, hkept, hnone, if_pos rfl]
        simp [hc]
      · -- another field leaves this one as it is
        rw [ih hfill, h.others g hg hname v d e he, if_neg hname]

/-- The item at the field's place is what is kept. -/
theorem Keeps.get_fillPlaced (h : Keeps fields place f get read) {items rest : List Value}
    {d d' : σ} (hnone : get d = none) (hfill : fillPlaced fields items d = .ok (rest, d')) (b : β) :
    get d' = some b ↔ ∃ v, items[place]? = some v ∧ read v = .ok b := by
  induction fields generalizing items d place with
  | nil => simpa using h.at_place
  | cons g gs ih =>
    cases items with
    | nil =>
      obtain ⟨-, rfl⟩ := Prod.mk.inj (Except.ok.inj hfill)
      simp [hnone]
    | cons v vs =>
      rw [fillPlaced] at hfill
      obtain ⟨e, he, hfill⟩ := bind_eq_ok.mp hfill
      obtain ⟨hg, hgs⟩ := List.nodup_cons.mp h.names
      have hname : ∀ g' ∈ gs, g'.name ≠ g.name := fun g' hg' heq =>
        hg (heq ▸ List.mem_map_of_mem hg')
      cases place with
      | zero =>
        -- the item at hand is that of the field
        obtain rfl : g = f := Option.some.inj h.at_place
        obtain ⟨c, hc, hkept⟩ := h.own v d e he
        -- the fields behind it leave it as it is
        have hbehind : ∀ g' ∈ gs, ∀ w, True → ∀ d₁ d₂, get d₁ = some c → g'.fill w d₁ = .ok d₂ →
            get d₂ = some c := by
          intro g' hg' w _ d₁ d₂ hd hfill
          rw [h.others g' (List.mem_cons_of_mem g hg') (hname g' hg') w d₁ d₂ hfill, hd]
        have hlater : get d' = some c :=
          inv_fillPlaced hbehind (fun _ _ => trivial) hkept hfill
        simp [hlater, hc]
      | succ place =>
        -- the field comes later, and the one at hand does not fill it
        have hplace : gs[place]? = some f := h.at_place
        have htail : Keeps gs place f get read :=
          ⟨hgs, hplace, h.filled, h.own, fun g' hg' => h.others g' (List.mem_cons_of_mem g hg')⟩
        have hf : g.name ≠ f.name := (hname f (List.mem_of_getElem? hplace)).symm
        have hkept : get e = none := by
          rw [h.others g List.mem_cons_self hf v d e he, hnone]
        exact ih htail hkept hfill

/-- The draft of a record has for each field what is read from the part that stands for it. -/
theorem exists_draft {article : String} {draft : σ}
    {finish : (String → Nat → DecodeError) → σ → Except DecodeError α} {v : Value} {a : α}
    (h : record article fields draft finish v = .ok a) :
    ∃ missing d, finish missing d = .ok a ∧
      ∀ {β : Type} {place : Nat} {f : Field Value σ} {get : σ → Option β}
        {read : Value → Except DecodeError β}, Keeps fields place f get read → get draft = none →
        ∀ b, get d = some b ↔ ∃ w, v.part f.name place = some w ∧ read w = .ok b := by
  unfold record at h
  obtain ⟨view, hview, h⟩ := bind_eq_ok.mp h
  cases v with
  | object members =>
    cases hview
    obtain ⟨_, -, h⟩ := bind_eq_ok.mp h
    obtain ⟨d, hd, h⟩ := bind_eq_ok.mp h
    obtain ⟨_, -, h⟩ := bind_eq_ok.mp h
    refine ⟨_, d, h, ?_⟩
    intro β place f get read hkeeps hnone b
    rw [hkeeps.get_fillNamed hd b, hnone]
    simp [Value.part]
  | array items =>
    cases hview
    obtain ⟨_, -, h⟩ := bind_eq_ok.mp h
    obtain ⟨⟨rest, d⟩, hd, h⟩ := bind_eq_ok.mp h
    have hfinish : ∃ missing, finish missing d = .ok a := by
      dsimp only at h
      split at h
      · obtain ⟨_, -, h⟩ := bind_eq_ok.mp h
        exact ⟨_, ok_of_closing h⟩
      · exact ⟨_, ok_of_closing h⟩
    obtain ⟨missing, hfinish⟩ := hfinish
    refine ⟨missing, d, hfinish, ?_⟩
    intro β place f get read hkeeps hnone
    exact hkeeps.get_fillPlaced hnone hd
  | _ =>
    cases hview
    cases h

end Read

end Courier.Json
