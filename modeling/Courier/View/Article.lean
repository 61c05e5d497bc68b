import Courier.Time.Decode

/-!
Articles: the records that the article and digest views show.
-/

namespace Courier

open Json

/-- An article. -/
structure Article where
  title : String
  link : String
  description : Option String
  source : Option String
  publishedAt : Option Time.Instant
deriving DecidableEq

namespace Article

/-- The fields read so far. -/
structure Draft where
  title : Option String := none
  link : Option String := none
  description : Option (Option String) := none
  source : Option (Option String) := none
  publishedAt : Option (Option Time.Instant) := none

variable {S : Type} [Source S]

/-- The fields of an article, in order. -/
def fields : List (Read.Field S Draft) :=
  [⟨"title", fun d => d.title.isSome,
      fun s d => (Read.string s).map fun v => { d with title := some v }⟩,
   ⟨"link", fun d => d.link.isSome,
      fun s d => (Read.string s).map fun v => { d with link := some v }⟩,
   ⟨"description", fun d => d.description.isSome,
      fun s d => (Read.optional Read.string s).map fun v => { d with description := some v }⟩,
   ⟨"source", fun d => d.source.isSome,
      fun s d => (Read.optional Read.string s).map fun v => { d with source := some v }⟩,
   ⟨"published_at", fun d => d.publishedAt.isSome,
      fun s d => (Read.optional Read.instant s).map fun v => { d with publishedAt := some v }⟩]

/-- The article of the fields read: title and link are needed. -/
def Draft.finish (missing : String → Nat → DecodeError) (d : Draft) :
    Except DecodeError Article :=
  match d.title, d.link with
  | none, _ => .error (missing "title" 0)
  | some _, none => .error (missing "link" 1)
  | some title, some link =>
    .ok ⟨title, link, d.description.getD none, d.source.getD none, d.publishedAt.getD none⟩

/-- Reads an article. -/
def read (s : S) : Except DecodeError Article :=
  Read.record "struct Article" fields {} Draft.finish s

end Article

end Courier
