import Ambient.Text.Lines

/-! The readable text of documentation lines: the summary element if there is one, its tags removed
and its entities decoded. A tag that refers to something leaves the last segment of its name. -/
namespace Ambient.Summary

theorem cutAt?_length {p : Char → Bool} {cs before after : List Char}
    (h : Text.cutAt? p cs = some (before, after)) : after.length < cs.length := by
  induction cs generalizing before with
  | nil => simp [Text.cutAt?] at h
  | cons c r ih =>
    simp only [Text.cutAt?] at h
    split at h
    · simp at h; simp [h.2]
    · cases hr : Text.cutAt? p r with
      | none => simp [hr] at h
      | some found =>
        simp [hr] at h
        have := @ih found.1 (by rw [hr, ← h.2])
        simp; omega

/-- The body of the summary element, all of the text when it is not marked up at all, and nothing
for other markup or an element that does not close after it opens. -/
def body? (doc : List Char) : Option (List Char) :=
  match Text.cut? "<summary>".toList doc with
  | some (before, after) =>
    if (Text.cut? "</summary>".toList before).isSome then none
    else (Text.cut? "</summary>".toList after).map (·.1)
  | none => if (Text.trimStart doc).head? = some '<' then none else some doc

def referenceIn (tag key : List Char) : Option (Option (List Char)) :=
  (Text.cut? key tag).map fun (_, value) =>
    (Text.cutAt? (· == '"') value).map fun (name, _) =>
      Text.lastPiece (fun c => c == '.' || c == ':') name

/-- What a tag leaves in the text. -/
def reference (tag : List Char) : List Char :=
  match referenceIn tag "cref=\"".toList with
  | some name => name.getD []
  | none => ((referenceIn tag "langword=\"".toList).bind id).getD []

def stripTags : List Char → List Char
  | [] => []
  | c :: r =>
    if c = '<' then
      match h : Text.cutAt? (· == '>') r with
      | none => c :: r
      | some (tag, after) =>
        have := cutAt?_length h
        reference tag ++ stripTags after
    else c :: stripTags r
termination_by cs => cs.length

def decodeEntities (cs : List Char) : List Char :=
  [("&lt;", "<"), ("&gt;", ">"), ("&quot;", "\""), ("&apos;", "'"), ("&amp;", "&")].foldl
    (fun text (entity, plain) => Text.replaceAll entity plain text) cs

def ofDocs (docs : List String) : Option String :=
  if docs.isEmpty then none
  else match body? (Text.joinWith ['\n'] (docs.map (·.toList))) with
    | none => none
    | some body =>
      let kept := Text.tidyLines (decodeEntities (stripTags body))
      if kept.isEmpty then none else some (String.ofList (Text.joinWith ['\n'] kept))

end Ambient.Summary
