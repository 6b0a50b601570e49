import Ambient.Generator
import Ambient.Proofs.Formatting.Flags
import Mathlib.Logic.Function.Basic

/-!
# Formatting does not change the declarations

Texts with the same tokens and documentation lines, whatever stands between them, are read
alike: both fail for the same cause, or both give a file, and the two files differ in no more
than the spelling of types if initializers and arguments are literals. A translation does not
see that difference.
-/
namespace Ambient

open Host

/-- The tokens and documentation lines of a text. -/
def Lexeme.pieces (text : String) : List Piece := (Lexeme.ofText text).map (·.piece)

theorem Item.ofLexemes_eq {ls ls' : List Lexeme} (same : ls'.map (·.piece) = ls.map (·.piece))
    (docs : List String) :
    (Item.ofLexemes docs ls').map (fun i => (i.token, i.docs)) =
      (Item.ofLexemes docs ls).map fun i => (i.token, i.docs) := by
  induction ls generalizing ls' docs with
  | nil =>
    rw [List.map_eq_nil_iff.mp same]
  | cons l more ih =>
    obtain ⟨l', more', rfl, piece, others⟩ := List.map_eq_cons_iff.mp same
    obtain ⟨p, start, stop⟩ := l
    obtain ⟨p', start', stop'⟩ := l'
    obtain rfl : p' = p := piece
    cases p' with
    | doc line => exact ih others (docs ++ [line])
    | token t => exact congrArg ((t, docs) :: ·) (ih others [])

section
variable {text text' : String} (same : Lexeme.pieces text' = Lexeme.pieces text)

include same in
theorem Item.tokens_eq :
    (Item.ofText text').map (·.token) = (Item.ofText text).map (·.token) := by
  have items := congrArg (List.map Prod.fst) (Item.ofLexemes_eq same [])
  rwa [List.map_map, List.map_map] at items

include same in
theorem Item.docs_eq : (Item.ofText text').map (·.docs) = (Item.ofText text).map (·.docs) := by
  have items := congrArg (List.map Prod.snd) (Item.ofLexemes_eq same [])
  rwa [List.map_map, List.map_map] at items

namespace Pairing

theorem at_unflagging (text : String) :
    (unflagging text).At (Item.flaggedOf text) (Item.ofText text) := by
  refine ⟨List.suffix_rfl, List.suffix_rfl, ?_⟩
  have items := congrArg (List.map (·.token)) (retext_flaggedOf text).symm
  rwa [List.map_map] at items

include same in
theorem at_flagged : (flagged text text').At (Item.flaggedOf text) (Item.flaggedOf text') := by
  refine ⟨List.suffix_rfl, List.suffix_rfl, ?_⟩
  have tokens := congrArg (List.map (Token.retext flag)) (Item.tokens_eq same)
  simp only [Item.flaggedOf, List.map_map] at tokens ⊢
  refine tokens.trans (List.map_congr_left fun i _ => ?_)
  exact (Token.retext_id _).symm

end Pairing
end

namespace Host

/-- One spelling for all texts that read as the same type. -/
noncomputable def respelled (written : String) : String :=
  Function.invFun TypeSyntax.reading (TypeSyntax.reading written)

theorem reading_respelled (written : String) :
    TypeSyntax.reading (respelled written) = TypeSyntax.reading written :=
  Function.invFun_eq ⟨written, rfl⟩

theorem respells_ofTypes : (Rewording.ofTypes respelled).Respells where
  types := reading_respelled
  values := fun _ => rfl
  inits := fun _ => rfl

theorem settles_unflagging (text : String) :
    (Spelling.unflagging text).Settles ⟨respelled, unflag, id⟩ (.ofTypes respelled)
      (fun _ => True) (fun _ => True) where
  types := fun _ _ same => congrArg respelled same
  values := fun _ _ same _ => same
  inits := fun _ _ same _ => same

theorem settles_flagged (text text' : String) :
    (Spelling.flagged text text').Settles ⟨respelled, unflag, id⟩ ⟨respelled, unflag, id⟩
      IsFlagged IsNumber where
  types := fun _ _ same => congrArg (Function.invFun TypeSyntax.reading) same
  values := fun _ _ same flagged => congrArg unflag (same flagged)
  inits := fun _ _ same number => same number

section
variable {path : Path} {text : String}

theorem agree_unflagging (text : String) :
    (Pairing.unflagging text).Agree
      ((Pairing.unflagging text).Lefts (List.Forall₂ (Part.Alike (Spelling.unflagging text))))
      (readNamespaceBody text.toList "" false (Item.flaggedOf text))
      (readNamespaceBody text.toList "" false (Item.ofText text)) :=
  Pairing.agree_readNamespaceBody (Pairing.carries_unflagging text) "" false
    (Pairing.at_unflagging text)

theorem parse_of_flagged_error {e : SyntaxFault} (h : File.parseFlagged path text = .error e) :
    ∃ e', File.parse path text = .error e' ∧ e'.cause = e.cause.retext unflag := by
  have agree := agree_unflagging text
  rw [File.parseFlagged] at h
  rw [File.parse_eq]
  generalize readNamespaceBody text.toList "" false (Item.flaggedOf text) = x at agree h
  generalize readNamespaceBody text.toList "" false (Item.ofText text) = y at agree ⊢
  cases agree with
  | error cause =>
    cases h
    exact ⟨_, rfl, cause⟩
  | ok parts => cases h

theorem parse_of_flagged_ok {file : File} (h : File.parseFlagged path text = .ok file) :
    ∃ file', File.parse path text = .ok file' ∧ file'.path = path ∧
      file.reword ⟨respelled, unflag, id⟩ = file'.reword (.ofTypes respelled) := by
  have agree := agree_unflagging text
  rw [File.parseFlagged] at h
  rw [File.parse_eq]
  generalize readNamespaceBody text.toList "" false (Item.flaggedOf text) = x at agree h
  generalize readNamespaceBody text.toList "" false (Item.ofText text) = y at agree ⊢
  cases agree with
  | error cause => cases h
  | ok parts =>
    cases h
    refine ⟨_, rfl, rfl, File.reword_ofParts_eq (settles_unflagging text) path parts.1 ?_⟩
    exact fun t _ => ⟨fun _ _ _ _ => trivial, fun _ _ _ _ => trivial⟩

end

/-- The flagged files of two texts with the same tokens. -/
theorem parseFlagged_of_same {text text' : String}
    (same : Lexeme.pieces text' = Lexeme.pieces text) (path : Path)
    (literals : OnlyLiterals path text) :
    (∃ e e', File.parseFlagged path text = .error e ∧
      File.parseFlagged path text' = .error e' ∧ e'.cause = e.cause) ∨
    ∃ file file', File.parseFlagged path text = .ok file ∧
      File.parseFlagged path text' = .ok file' ∧
      file.reword ⟨respelled, unflag, id⟩ = file'.reword ⟨respelled, unflag, id⟩ := by
  have agree :=
    Pairing.agree_readNamespaceBody (Pairing.carries_flagged (Item.docs_eq same)) "" false
    (Pairing.at_flagged same)
  rw [OnlyLiterals] at literals
  rw [File.parseFlagged] at literals ⊢
  rw [File.parseFlagged]
  simp only [Spelling.flagged] at agree
  generalize readNamespaceBody text.toList "" false (Item.flaggedOf text) = x at agree literals ⊢
  generalize readNamespaceBody text'.toList "" false (Item.flaggedOf text') = y at agree ⊢
  cases agree with
  | error cause => exact .inl ⟨_, _, rfl, rfl, cause.trans (SyntaxCause.retext_id _)⟩
  | ok parts =>
    refine .inr ⟨_, _, rfl, rfl, ?_⟩
    exact File.reword_ofParts_eq (settles_flagged text text') path parts.1 (literals _ rfl)

end Host

/-- A file that is the same but for the spelling of types is translated alike among
the same others. -/
theorem Setting.translate_of_reword_eq {file file' : File}
    (same : file.reword (.ofTypes respelled) = file'.reword (.ofTypes respelled)) (name : String)
    (root : Path) (before after : List File) (options : Options) (sidecar : Sidecar) :
    (Setting.of file (.ofFiles name root (before ++ file :: after)) options).translate sidecar =
      (Setting.of file' (.ofFiles name root (before ++ file' :: after)) options).translate
        sidecar := by
  have respelling : ∀ f : File,
      (Setting.of f (.ofFiles name root (before ++ f :: after)) options).translate sidecar =
        (Setting.of (f.reword (.ofTypes respelled))
          (.ofFiles name root (before.map (·.reword (.ofTypes respelled)) ++
            f.reword (.ofTypes respelled) :: after.map (·.reword (.ofTypes respelled))))
          options).translate sidecar := by
    intro f
    rw [← List.map_cons, ← List.map_append, Index.ofFiles_reword, Setting.of_reword,
      Setting.translate_reword respells_ofTypes]
  rw [respelling file, respelling file', same]

/-- Two texts with the same tokens and documentation lines, in which initializers and arguments are
literals, cannot be told apart: both fail with the same message, or both give a file, and among the
same other files, with the same options and the same sidecar, both files are translated to the same
declarations, the same sidecar and the same text. -/
theorem translate_reformatted {text text' : String}
    (same : Lexeme.pieces text' = Lexeme.pieces text) (path : Path)
    (literals : OnlyLiterals path text) :
    (∃ e e', File.parse path text = .error e ∧ File.parse path text' = .error e' ∧
      e'.cause.message = e.cause.message) ∨
    ∃ file file', File.parse path text = .ok file ∧ File.parse path text' = .ok file' ∧
      (∀ name root before after options sidecar,
        (Setting.of file (.ofFiles name root (before ++ file :: after)) options).translate sidecar =
          (Setting.of file' (.ofFiles name root (before ++ file' :: after)) options).translate
            sidecar) ∧
      ∀ (g : Generator) (fs : FileSystem),
        g.translateFile fs file = g.translateFile fs file' := by
  obtain ⟨e, e', flagged, flagged', cause⟩ | ⟨file, file', flagged, flagged', words⟩ :=
    parseFlagged_of_same same path literals
  · obtain ⟨e₁, parsed, cause₁⟩ := parse_of_flagged_error flagged
    obtain ⟨e₂, parsed', cause₂⟩ := parse_of_flagged_error flagged'
    exact .inl ⟨e₁, e₂, parsed, parsed', by rw [cause₁, cause₂, cause]⟩
  · obtain ⟨f, parsed, path₁, words₁⟩ := parse_of_flagged_ok flagged
    obtain ⟨f', parsed', path₂, words₂⟩ := parse_of_flagged_ok flagged'
    have translations := Setting.translate_of_reword_eq (words₁.symm.trans (words.trans words₂))
    refine .inr ⟨f, f', parsed, parsed', translations, ?_⟩
    intro g fs
    have alone := fun after => translations g.project.name g.project.root [] after g.options
    simp only [List.nil_append] at alone
    simp only [Generator.translateFile, Generator.index, path₁, path₂, alone]

def compactText : String :=
  "enum E\x7bA=1\x7d[K(\"k\")]class C\x7bpublic T<U>B;\x7d"

def spacedText : String :=
  "enum E \x7b A = 1 \x7d\n[K(\"k\")] // key\nclass C \x7b public T < U > B; \x7d"

/-- The file of both texts, up to the spelling of one type and the value of one argument. -/
def keyedFile (typeName value : String) : File where
  path := ⟨"C.cs"⟩
  usings := []
  types :=
    [⟨"E", "", .enumKind, [], none, [⟨"A", "", some "1", none, []⟩], [], []⟩,
     ⟨"C", "", .classKind, [], none, [⟨"B", typeName, none, none, []⟩], [],
       [⟨"K", [⟨none, value⟩]⟩]⟩]
  externalTypes := []

/-- The tokens of both texts. -/
def keyedTokens : List Token :=
  [.keyword .enumKw, .ident "E", .mark .openBrace, .ident "A", .mark .equals, .number "1",
    .mark .closeBrace, .mark .openBracket, .ident "K", .mark .openParen, .text "k",
    .mark .closeParen, .mark .closeBracket, .keyword .classKw, .ident "C", .mark .openBrace,
    .keyword .publicKw, .ident "T", .mark .openAngle, .ident "U", .mark .closeAngle, .ident "B",
    .mark .semicolon, .mark .closeBrace]

theorem pieces_compactText : Lexeme.pieces compactText = keyedTokens.map .token := by
  with_unfolding_all rfl

theorem pieces_spacedText : Lexeme.pieces spacedText = keyedTokens.map .token := by
  with_unfolding_all rfl

theorem parseFlagged_compactText :
    File.parseFlagged ⟨"C.cs"⟩ compactText = .ok (keyedFile "T<U>" " k") := by
  with_unfolding_all rfl

theorem parse_compactText :
    File.parse ⟨"C.cs"⟩ compactText = .ok (keyedFile "T<U>" "k") := by
  with_unfolding_all rfl

theorem parse_spacedText :
    File.parse ⟨"C.cs"⟩ spacedText = .ok (keyedFile "T < U >" "k") := by
  with_unfolding_all rfl

theorem translate_reformatted_of_spaced :
    Lexeme.pieces spacedText = Lexeme.pieces compactText ∧
      OnlyLiterals ⟨"C.cs"⟩ compactText ∧
      File.parse ⟨"C.cs"⟩ compactText = .ok (keyedFile "T<U>" "k") ∧
      File.parse ⟨"C.cs"⟩ spacedText = .ok (keyedFile "T < U >" "k") ∧
      ∀ name root options sidecar,
        (Setting.of (keyedFile "T<U>" "k")
            (.ofFiles name root [keyedFile "T<U>" "k"]) options).translate sidecar =
          (Setting.of (keyedFile "T < U >" "k")
            (.ofFiles name root [keyedFile "T < U >" "k"]) options).translate
              sidecar := by
  have pieces := pieces_spacedText.trans pieces_compactText.symm
  have number : IsNumber "1" := by with_unfolding_all rfl
  have literals : OnlyLiterals ⟨"C.cs"⟩ compactText := by
    intro file found
    rw [parseFlagged_compactText] at found
    cases found
    intro t there
    simp only [keyedFile, TypeDecl.insideAll, TypeDecl.inside, List.append_nil, List.cons_append,
      List.nil_append, List.mem_cons, List.not_mem_nil, or_false] at there
    rcases there with rfl | rfl
    · exact ⟨by simp [TypeDecl.allAttributes], by simpa using number⟩
    · exact ⟨by simp [TypeDecl.allAttributes, IsFlagged], by simp⟩
  refine ⟨pieces, literals, parse_compactText, parse_spacedText, ?_⟩
  obtain ⟨e, _, failed, -⟩ | ⟨file, file', parsed, parsed', translations, -⟩ :=
    translate_reformatted pieces ⟨"C.cs"⟩ literals
  · rw [parse_compactText] at failed
    cases failed
  · rw [parse_compactText] at parsed
    rw [parse_spacedText] at parsed'
    cases parsed
    cases parsed'
    exact fun name root options sidecar => translations name root [] [] options sidecar

end Ambient
