import Ambient.Proofs.Index.Entries
import Ambient.Proofs.Sidecar.Homes
import Ambient.Proofs.Source.Declarations

/-!
# Keys of entries

The key of an entry is the name of its type behind the type around it, or behind its namespace if it
is not nested. Names in source hold no dot, so a key comes apart at its last dot into just these.
-/
namespace Ambient

open Host

theorem lastPiece_of_isWord {name : String} (word : IsWord name) :
    Text.lastPiece (· == '.') name.toList = name.toList := by
  refine Text.lastPiece_of_forall fun d hd => ?_
  rw [beq_eq_false_iff_ne]
  rintro rfl
  exact word.not_mem (by decide) hd

theorem lastPiece_qualify {outer name : String} :
    Text.lastPiece (· == '.') (qualify outer name).toList =
      Text.lastPiece (· == '.') name.toList := by
  unfold qualify
  split
  · rfl
  · exact lastPiece_append_dot outer name

/-- A qualified name comes apart at its last dot. -/
theorem splitQualified_qualify {outer name : String} (word : IsWord name) :
    splitQualified (qualify outer name) = ⟨outer, name⟩ := by
  have last := lastPiece_of_isWord word
  rw [splitQualified, lastPiece_qualify, last, String.ofList_toList]
  unfold qualify
  split
  · rename_i empty
    simp [String.isEmpty_iff.mp empty]
  · have dot : ".".toList.length = 1 := rfl
    have size : (outer ++ "." ++ name).toList.length - name.toList.length - 1 =
        outer.toList.length := by
      simp only [String.toList_append, List.length_append, dot]
      omega
    rw [size]
    simp [String.toList_append, List.append_assoc]

namespace Index
variable {key : String} {e : Entry} {f : File}

theorem key_of_mem_entriesOfList {container : Option String} {space : String} {file : Option Path}
    {ts : List TypeDecl} (h : (key, e) ∈ entriesOfList container space file ts) :
    key = qualify (e.container.getD e.host.space) e.host.name := by
  refine entriesOfList_induction (motive := fun _ _ _ =>
    key = qualify (e.container.getD e.host.space) e.host.name) ?here ?inside h
  case here =>
    intro container space ts t _ own
    obtain ⟨rfl, rfl⟩ := Prod.mk.inj own
    cases container <;> rfl
  case inside =>
    intro _ _ _ _ _ ih
    exact ih

theorem isWord_of_mem_entriesOfList {container : Option String} {space : String}
    {file : Option Path} {ts : List TypeDecl} (source : ∀ t ∈ ts, ∃ space, t.FromSource space)
    (h : (key, e) ∈ entriesOfList container space file ts) : IsWord e.host.name := by
  refine entriesOfList_induction (motive := fun _ _ ts =>
    (∀ t ∈ ts, ∃ space, t.FromSource space) → IsWord e.host.name) ?here ?inside h source
  case here =>
    intro container space ts t ht own source
    rw [(Prod.mk.inj own).2]
    obtain ⟨_, shape⟩ := source t ht
    exact shape.word
  case inside =>
    intro container space ts t ht ih source
    obtain ⟨own, shape⟩ := source t ht
    exact ih fun u hu => ⟨own, shape.of_nested hu⟩

/-- The key of an entry of a source. -/
theorem key_of_mem_entriesOfFile (source : f.FromSource) (h : (key, e) ∈ entriesOfFile f) :
    key = qualify (e.container.getD e.host.space) e.host.name ∧ IsWord e.host.name ∧
      e.file = some f.path := by
  have own : (key, e) ∈ entriesOfList none "" (some f.path) f.types := by
    rcases List.mem_append.mp h with own | external
    · exact own
    · rw [source.external, entriesOfList] at external
      cases external
  refine ⟨key_of_mem_entriesOfList own, isWord_of_mem_entriesOfList ?_ own,
    file_of_mem_entriesOfList own⟩
  intro t ht
  obtain ⟨space, _, shape⟩ := source.types t ht
  exact ⟨space, shape⟩

end Index

end Ambient
