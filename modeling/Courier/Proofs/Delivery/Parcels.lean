import Courier.Delivery.Unit
import Courier.Proofs.Delivery.Packing

/-!
The parcels of a rendering, and the entry of a message.

A rendering is sent in its chunks, or not at all if it is blank (`Delivery.chunks`).
`Delivery.Parceled` says how the chunks and an image are made into parcels: the image comes first,
and the first chunk is its caption if that is short enough.

There are two ways, with an image and without one (`parcels_of_image_some`,
`parcels_of_image_none`); an address that is empty counts as none.  That texts are not empty and not
longer than the service takes is known from the splitter and holds for either.

Main statement: a message that is rendered becomes an entry that carries its image and all chunks,
each within the bounds of the service, unless there is neither an image nor a chunk
(`Delivery.Entry.ofMessage_carries`).  An entry is made for any budget of attempts, and each of its
units has the whole of it.
-/

namespace Courier.Delivery

open Chunk

/-- The address of an image, if it is not empty. -/
def image? (imageUrl : Option String) : Option String := imageUrl.filter (· ≠ "")

/-- The chunks that a rendering is sent in; there are none if it is blank. -/
def chunks (html : List Char) : List (List Char) :=
  if html.all Text.isBlank then [] else split messageMax html

/-- How a rendering and an image are made into parcels: the image comes first, with the first chunk as
its caption if that is short enough, and the other chunks are texts. -/
structure Parceled (image : Option String) (html : List Char) (caption : Option String)
    (texts : List String) (ps : List Parcel) : Prop where
  parcels_eq : ps = (image.map fun url => .photo url caption).toList ++ texts.map .text
  caption_iff : ∀ c, caption = some c ↔
    image.isSome ∧ html.all Text.isBlank = false ∧
      (split messageMax html).head? = some c.toList ∧ c.length ≤ captionMax
  texts_bounded : ∀ t ∈ texts, t ≠ "" ∧ t.length ≤ messageMax
  carried : (caption.toList ++ texts).map String.toList = chunks html

/-! ### Chunks of a rendering -/

theorem mem_chunks {html c : List Char} (hc : c ∈ chunks html) : c ≠ [] ∧ c.length ≤ messageMax := by
  unfold chunks at hc
  split_ifs at hc with hblank
  · cases hc
  · have hne : html ≠ [] := by
      rintro rfl
      exact hblank rfl
    exact ⟨ne_of_mem_of_not_mem hc (nil_not_mem_split hne), length_le_of_mem_split (by decide) hc⟩

/-- A rendering has no chunks only if it is blank. -/
theorem chunks_eq_nil_iff {html : List Char} : chunks html = [] ↔ html.all Text.isBlank = true := by
  unfold chunks
  cases hblank : html.all Text.isBlank with
  | true => simp
  | false => simpa using split_ne_nil hblank

theorem head?_chunks {html c : List Char} : (chunks html).head? = some c ↔
    html.all Text.isBlank = false ∧ (split messageMax html).head? = some c := by
  unfold chunks
  cases html.all Text.isBlank <;> simp

/-- The first chunk is a caption if it is short enough. -/
theorem first_iff {html first : List Char} {rest : List (List Char)} (h : chunks html = first :: rest)
    (c : String) :
    html.all Text.isBlank = false ∧ (split messageMax html).head? = some c.toList ∧
        c.length ≤ captionMax ↔
      String.ofList first = c ∧ first.length ≤ captionMax := by
  rw [← and_assoc, ← head?_chunks, h, List.head?_cons, Option.some_inj]
  constructor
  · rintro ⟨rfl, hshort⟩
    exact ⟨String.ofList_toList, by rwa [String.length_toList]⟩
  · rintro ⟨rfl, hshort⟩
    exact ⟨String.toList_ofList.symm, by simpa using hshort⟩

theorem texts_bounded {cs : List (List Char)} (h : ∀ c ∈ cs, c ≠ [] ∧ c.length ≤ messageMax) :
    ∀ t ∈ cs.map String.ofList, t ≠ "" ∧ t.length ≤ messageMax := by
  intro t ht
  obtain ⟨c, hc, rfl⟩ := List.mem_map.mp ht
  obtain ⟨hne, hlength⟩ := h c hc
  refine ⟨?_, by simpa using hlength⟩
  intro hempty
  exact hne (by simpa using congrArg String.toList hempty)

/-! ### Parcels -/

/-- Chunks as texts. -/
def textsOf (cs : List (List Char)) : List Parcel := cs.map fun c => .text (String.ofList c)

theorem parcels_of_image_none {imageUrl : Option String} (h : image? imageUrl = none)
    (html : List Char) : parcels imageUrl html = textsOf (chunks html) := by
  cases imageUrl with
  | none => rfl
  | some url =>
    have hurl : url = "" := by simpa [image?] using h
    rw [parcels]
    simp only [if_pos hurl]
    rfl

theorem parcels_of_image_some {imageUrl : Option String} {url : String}
    (h : image? imageUrl = some url) (html : List Char) :
    parcels imageUrl html =
      match chunks html with
      | first :: rest =>
        if first.length ≤ captionMax then .photo url (some (String.ofList first)) :: textsOf rest
        else .photo url none :: textsOf (first :: rest)
      | [] => [.photo url none] := by
  obtain ⟨rfl, hurl⟩ := Option.filter_eq_some_iff.mp h
  have hne : url ≠ "" := by simpa using hurl
  rw [parcels]
  simp only [if_neg hne]
  rfl

theorem parcels_eq_nil_iff {imageUrl : Option String} {html : List Char} :
    parcels imageUrl html = [] ↔ html.all Text.isBlank = true ∧ image? imageUrl = none := by
  cases himage : image? imageUrl with
  | none =>
    rw [parcels_of_image_none himage, textsOf, List.map_eq_nil_iff, chunks_eq_nil_iff]
    simp
  | some url =>
    rw [parcels_of_image_some himage]
    split
    · split_ifs <;> simp
    · simp

/-- The parcels of a rendering carry its chunks. -/
theorem exists_parceled (imageUrl : Option String) (html : List Char) :
    ∃ caption texts, Parceled (image? imageUrl) html caption texts (parcels imageUrl html) := by
  have hbounded : ∀ c ∈ chunks html, c ≠ [] ∧ c.length ≤ messageMax := fun _ => mem_chunks
  -- with an image, the first chunk may become its caption
  cases himage : image? imageUrl with
  | none =>
    rw [parcels_of_image_none himage]
    refine ⟨none, (chunks html).map String.ofList, ?_, ?_, texts_bounded hbounded, ?_⟩
    · simp [textsOf]
    · simp
    · simp
  | some url =>
    rw [parcels_of_image_some himage]
    cases hchunks : chunks html with
    | nil =>
      have hblank := chunks_eq_nil_iff.mp hchunks
      refine ⟨none, [], rfl, ?_, by simp, hchunks.symm⟩
      simp [hblank]
    | cons first rest =>
      rw [hchunks] at hbounded
      dsimp only
      -- the caption is short enough, or the image goes without one
      split_ifs with hshort
      · refine ⟨some (String.ofList first), rest.map String.ofList, ?_, ?_, ?_, ?_⟩
        · simp [textsOf]
        · intro c
          rw [first_iff hchunks]
          simp [hshort]
        · exact texts_bounded fun c hc => hbounded c (List.mem_cons_of_mem _ hc)
        · simp [hchunks]
      · refine ⟨none, (first :: rest).map String.ofList, ?_, ?_, texts_bounded hbounded, ?_⟩
        · simp [textsOf]
        · intro c
          rw [first_iff hchunks]
          simp [hshort]
        · simp [hchunks]

/-! ### Entries -/

/-- What the entry of a message that is rendered carries. -/
structure Entry.Carries (m : Message) (html : List Char) (maxRetry : Nat) (e : Entry Parcel) :
    Prop where
  units_ne_nil : e.units ≠ []
  delay_eq : e.delay = m.delay
  fresh : ∀ u ∈ e.units, u.retryCount = 0 ∧ u.maxRetry = maxRetry
  parceled : ∃ caption texts,
    Parceled (image? m.imageUrl) html caption texts (e.units.map Unit.payload)

/-- A message is refused as empty if its rendering is blank and it has no image, and else becomes an
entry that carries all of the rendering. -/
theorem Entry.ofMessage_carries {m : Message} {html : List Char}
    (hrender : render m.view m.data = .ok html) (maxRetry : Nat) :
    (ofMessage m maxRetry = .error .empty ↔
      html.all Text.isBlank = true ∧ image? m.imageUrl = none) ∧
    (¬ (html.all Text.isBlank = true ∧ image? m.imageUrl = none) →
      ∃ e, ofMessage m maxRetry = .ok e ∧ Carries m html maxRetry e) := by
  rw [← parcels_eq_nil_iff]
  unfold ofMessage
  rw [hrender]
  cases hparcels : parcels m.imageUrl html with
  | nil => simp [hparcels]
  | cons p ps =>
    simp only [hparcels]
    refine ⟨by simp, fun _ => ⟨_, rfl, by simp, rfl, ?_, ?_⟩⟩
    · intro u hu
      obtain ⟨q, -, rfl⟩ := List.mem_map.mp hu
      exact ⟨rfl, rfl⟩
    · have hpayloads : ((p :: ps).map fun p => Unit.new p maxRetry).map Unit.payload = p :: ps := by
        simp [Unit.new, Function.comp_def]
      rw [hpayloads, ← hparcels]
      exact exists_parceled m.imageUrl html

/-- A short text with an image. -/
def captioned : Message :=
  ((Message.new 1 "info.html" (.string "a < b")).withImage "https://img/x.png").delayed

/-- A short text becomes the caption of its image. -/
theorem Entry.ofMessage_carries_captioned :
    render captioned.view captioned.data = .ok "ℹ️ a &lt; b".toList ∧
      ∃ e, ofMessage captioned 3 = .ok e ∧ Carries captioned "ℹ️ a &lt; b".toList 3 e := by
  have hrender : render captioned.view captioned.data = .ok "ℹ️ a &lt; b".toList := by decide
  refine ⟨hrender, (Entry.ofMessage_carries hrender 3).2 ?_⟩
  decide

end Courier.Delivery
