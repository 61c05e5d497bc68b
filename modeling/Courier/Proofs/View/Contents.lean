import Courier.Proofs.Json.Records
import Courier.View.Render

/-!
What views read from data.

An article is a record of its fields (`Article.Of`): a title and a link, and a description, a source
and a time that may be missing.  It may be written as an object, or as an array with the fields in
order; for both `Value.part` says what stands for a field.  A draft of an article keeps each of the
five fields, as filling one of them leaves the others alone (`frame_of_fill`); so the article has
what its fields were read as (`Article.of_read`).

The content of a view is a string, a list of strings, an article, or articles by section
(`Content.Of`).  Only a rendering of content of the data can be said to show the data.

Main statement: content that has been read is content of the data (`Content.of_read`).
-/

namespace Courier

open Json Json.Read

/-! ### Articles -/

namespace Json.Read

theorem instant_eq_ok {v : Value} {t : Time.Instant} :
    instant v = .ok t ↔ ∃ s, v = .string s ∧ Time.Timestamp.lenient? s = some t := by
  cases v with
  | string s =>
    unfold instant
    rcases hs : Time.Timestamp.lenient? s with - | t' <;>
      simp [Source.view, ok_bind, hs, pure, Except.pure]
  | _ =>
    constructor
    · intro h
      cases h
    · simp

theorem optional_instant_eq_ok {v : Value} {t : Time.Instant} :
    optional instant v = .ok (some t) ↔
      ∃ s, v = .string s ∧ Time.Timestamp.lenient? s = some t :=
  (optional_eq_ok (by simp [instant_eq_ok])).trans instant_eq_ok

end Json.Read

/-- The article that a record stands for: its title and its link are strings, and each other field is
there if a string stands for it. -/
structure Article.Of (data : Value) (a : Article) : Prop where
  title : data.part "title" 0 = some (.string a.title)
  link : data.part "link" 1 = some (.string a.link)
  description : ∀ s, a.description = some s ↔ data.part "description" 2 = some (.string s)
  source : ∀ s, a.source = some s ↔ data.part "source" 3 = some (.string s)
  publishedAt : ∀ t, a.publishedAt = some t ↔
    ∃ s, data.part "published_at" 4 = some (.string s) ∧ Time.Timestamp.lenient? s = some t

namespace Article

/-- Filling a field leaves the others as they are. -/
theorem frame_of_fill {f : Field Value Draft} (hf : f ∈ fields) {v : Value} {d d' : Draft}
    (h : f.fill v d = .ok d') :
    (f.name ≠ "title" → d'.title = d.title) ∧ (f.name ≠ "link" → d'.link = d.link) ∧
      (f.name ≠ "description" → d'.description = d.description) ∧
      (f.name ≠ "source" → d'.source = d.source) ∧
      (f.name ≠ "published_at" → d'.publishedAt = d.publishedAt) := by
  simp only [fields, List.mem_cons, List.not_mem_nil, or_false] at hf
  rcases hf with rfl | rfl | rfl | rfl | rfl <;>
    obtain ⟨x, -, rfl⟩ := map_eq_ok.mp h <;>
    simp

theorem kept {β : Type} {x : Except DecodeError β} {put : β → Draft} {get : Draft → Option β}
    {d : Draft} (hput : ∀ b, get (put b) = some b) (h : x.map put = .ok d) :
    ∃ b, x = .ok b ∧ get d = some b := by
  obtain ⟨b, hb, rfl⟩ := map_eq_ok.mp h
  exact ⟨b, hb, hput b⟩

theorem of_read {data : Value} {a : Article} (h : Article.read data = .ok a) : Of data a := by
  obtain ⟨missing, d, hfinish, hparts⟩ := exists_draft h
  have hnames : ((fields : List (Field Value Draft)).map Field.name).Nodup := by decide
  have htitle : Keeps fields 0 fields[0] Draft.title Read.string :=
    ⟨hnames, rfl, fun _ => rfl, fun _ _ _ h => kept (fun _ => rfl) h,
      fun _ hg hne _ _ _ h => (frame_of_fill hg h).1 hne⟩
  have hlink : Keeps fields 1 fields[1] Draft.link Read.string :=
    ⟨hnames, rfl, fun _ => rfl, fun _ _ _ h => kept (fun _ => rfl) h,
      fun _ hg hne _ _ _ h => (frame_of_fill hg h).2.1 hne⟩
  have hdescription : Keeps fields 2 fields[2] Draft.description (Read.optional Read.string) :=
    ⟨hnames, rfl, fun _ => rfl, fun _ _ _ h => kept (fun _ => rfl) h,
      fun _ hg hne _ _ _ h => (frame_of_fill hg h).2.2.1 hne⟩
  have hsource : Keeps fields 3 fields[3] Draft.source (Read.optional Read.string) :=
    ⟨hnames, rfl, fun _ => rfl, fun _ _ _ h => kept (fun _ => rfl) h,
      fun _ hg hne _ _ _ h => (frame_of_fill hg h).2.2.2.1 hne⟩
  have hpublished : Keeps fields 4 fields[4] Draft.publishedAt (Read.optional Read.instant) :=
    ⟨hnames, rfl, fun _ => rfl, fun _ _ _ h => kept (fun _ => rfl) h,
      fun _ hg hne _ _ _ h => (frame_of_fill hg h).2.2.2.2 hne⟩
  -- a draft without a title or without a link makes no article
  unfold Draft.finish at hfinish
  split at hfinish
  · cases hfinish
  · cases hfinish
  next title link ht hl =>
  cases hfinish
  -- a field that is null and one that is missing are both nothing
  have hsome : ∀ {α : Type} {x : Option (Option α)} {b : α},
      x.getD none = some b ↔ x = some (some b) := by
    simp [Option.getD_eq_iff]
  refine ⟨?_, ?_, ?_, ?_, ?_⟩
  · obtain ⟨w, hpart, hw⟩ := (hparts htitle rfl title).mp ht
    rwa [string_eq_ok.mp hw] at hpart
  · obtain ⟨w, hpart, hw⟩ := (hparts hlink rfl link).mp hl
    rwa [string_eq_ok.mp hw] at hpart
  · intro s
    simp only [hsome, hparts hdescription rfl, optional_string_eq_ok, exists_eq_right]
    rfl
  · intro s
    simp only [hsome, hparts hsource rfl, optional_string_eq_ok, exists_eq_right]
    rfl
  · intro t
    -- a time is read from a string, and `null` is none
    rw [hsome, hparts hpublished rfl]
    constructor
    · rintro ⟨w, hpart, hw⟩
      obtain ⟨s, rfl, hs⟩ := optional_instant_eq_ok.mp hw
      exact ⟨s, hpart, hs⟩
    · rintro ⟨s, hpart, hs⟩
      exact ⟨_, hpart, optional_instant_eq_ok.mpr ⟨s, rfl, hs⟩⟩

end Article

/-! ### Content -/

/-- The content that data holds for a view.  A section of a digest is a member with a list of
articles. -/
inductive Content.Of : View → Value → Content → Prop
  | success (t : String) : Of .success (.string t) (.status "✅ " t)
  | error (t : String) : Of .error (.string t) (.status "❌ " t)
  | info (t : String) : Of .info (.string t) (.status "ℹ️ " t)
  | list (items : List String) : Of .list (.array (items.map .string)) (.list items)
  | article {data : Value} {a : Article} (h : a.Of data) : Of .article data (.article a)
  | digest {members : List (String × Value)} {sections : List (String × List Article)}
      (h : List.Forall₂ (fun m s => m.1 = s.1 ∧
        ∃ items, m.2 = .array items ∧ List.Forall₂ Article.Of items s.2) members sections) :
      Of .digest (.object members) (.digest (Members.ofList sections))

theorem Content.of_read {v : View} {data : Value} {c : Content} (h : v.read data = .ok c) :
    c.Of v data := by
  cases v with
  | success | error | info =>
    -- the three views of one string differ in their sign only
    obtain ⟨t, ht, rfl⟩ := map_eq_ok.mp h
    rw [string_eq_ok.mp ht]
    constructor
  | list =>
    obtain ⟨items, hitems, rfl⟩ := map_eq_ok.mp h
    obtain ⟨values, rfl, hvalues⟩ := exists_of_list hitems
    have hstrings : values = items.map .string := by
      rw [← List.forall₂_eq_eq_eq, List.forall₂_map_right_iff]
      exact hvalues.imp fun _ _ => string_eq_ok.mp
    rw [hstrings]
    exact .list items
  | article =>
    obtain ⟨a, ha, rfl⟩ := map_eq_ok.mp h
    exact .article (Article.of_read ha)
  | digest =>
    obtain ⟨_, hsections, rfl⟩ := map_eq_ok.mp h
    obtain ⟨members, sections, rfl, rfl, hmembers⟩ := exists_of_map hsections
    -- a section is a member with a list of articles as its value
    refine .digest (hmembers.imp ?_)
    rintro m s ⟨hname, harticles⟩
    obtain ⟨items, hitems, hread⟩ := exists_of_list harticles
    exact ⟨hname, items, hitems, hread.imp fun _ _ => Article.of_read⟩

end Courier
