import Ambient.Proofs.Resolution.Progress
import Ambient.Proofs.Resolution.Subject

/-!
# How deep shapes lie in a type

A shape holds the members of an undeclared type, and the shapes in it those of others. No type comes
twice on the way down, so there are no more shapes one in the other than undeclared types.
-/
namespace Ambient

open Host

namespace TypeRef

mutual
/-- How many shapes lie one in the other. -/
def depth : TypeRef → Nat
  | .known _ _ => 0
  | .shape members _ => depthIn members + 1
  | .untyped _ => 0

def depthIn : List (MemberOf TypeRef) → Nat
  | [] => 0
  | m :: more => max (depthMember m) (depthIn more)

def depthMember : MemberOf TypeRef → Nat
  | ⟨_, _, type, _, _, _⟩ => depth type
end

@[simp] theorem depth_plain (text : String) : (TypeRef.plain text).depth = 0 := by
  rw [TypeRef.plain, depth]

@[simp] theorem depth_unknown : TypeRef.unknown.depth = 0 := by rw [TypeRef.unknown, depth]

theorem depth_asArray (type : TypeRef) : type.asArray.depth = type.depth := by
  cases type <;> rw [asArray, depth, depth]

theorem depthIn_le {members : List Member} {n : Nat}
    (each : ∀ m ∈ members, m.type.depth ≤ n) :
    depthIn members ≤ n := by
  induction members with
  | nil =>
    rw [depthIn]
    exact Nat.zero_le n
  | cons m more ih =>
    have first := each m List.mem_cons_self
    rw [depthIn, depthMember]
    exact max_le first (ih fun k hk => each k (List.mem_cons_of_mem m hk))

end TypeRef

namespace Setting

/-- `s.Expanded done type`: each shape in `type` holds the members of an undeclared type, which is
not in `done` and is none of those that the shapes around it hold. -/
inductive Expanded (s : Setting) : List String → TypeRef → Prop
  | flat {done : List String} {type : TypeRef} (none : type.depth = 0) : s.Expanded done type
  | shape {done : List String} {key : String} {e : Entry} {members : List Member} {isArray : Bool}
    (found : s.get? key = some e) (undeclared : e.isDeclared = false) (fresh : key ∉ done)
    (names : members.map (·.name) =
      (e.host.members.filter (!·.isIgnored)).map fun m => m.serializedName?.getD m.name)
    (inside : ∀ m ∈ members, s.Expanded (key :: done) m.type) :
    s.Expanded done (.shape members isArray)

variable {s : Setting} {done : List String} {site : Site} {written key : String} {e : Entry}
  {type leaf : TypeRef}

/-- No more shapes lie one in the other than there are undeclared types left. -/
theorem Expanded.depth_le (h : s.Expanded done type) :
    type.depth ≤ (s.undeclared \ done.toFinset).card := by
  induction h with
  | flat none => rw [none]; exact Nat.zero_le _
  | shape found undeclared fresh _ _ ih =>
    have less := card_undeclared_lt (mem_undeclared_of_get? found undeclared) fresh
    have inner := TypeRef.depthIn_le ih
    rw [TypeRef.depth]
    omega

theorem Expanded.asArray (h : s.Expanded done type) : s.Expanded done type.asArray := by
  cases h with
  | flat none => exact .flat ((TypeRef.depth_asArray type).trans none)
  | shape found undeclared fresh names inside => exact .shape found undeclared fresh names inside

/-- What a type puts around its subject adds no shape. -/
theorem Expanded.wrap {o : Options} {ty : TypeSyntax} (h : s.Expanded done leaf) :
    s.Expanded done (ty.wrap o leaf) := by
  fun_induction TypeSyntax.wrap o ty leaf with
  | case1 ty rendered => exact .flat (TypeRef.depth_plain rendered)
  | case2 ty inner _ _ ih => exact ih
  | case3 ty element _ _ ih =>
    unfold TypeRef.listOf
    split
    · exact .flat (by rw [TypeRef.depth])
    · exact ih.asArray
  | case4 ty key value _ _ ih => exact .flat (TypeRef.depth_plain _)
  | case5 ty unknown => exact h

theorem Expanded.declare {o : Options} {m : Host.Member} (h : s.Expanded done leaf) :
    s.Expanded done (m.declare o leaf).type := by
  cases parsed : TypeSyntax.parse m.typeName with
  | error fault =>
    have unknown : (m.declare o leaf).type = .unknown := by
      unfold Host.Member.declare
      rw [parsed]
      rfl
    rw [unknown]
    exact .flat TypeRef.depth_unknown
  | ok ty =>
    rw [Host.Member.type_declare parsed]
    exact h.wrap

end Setting

theorem Host.Member.name_declare (o : Options) (m : Host.Member) (leaf : TypeRef) :
    (m.declare o leaf).name = m.serializedName?.getD m.name := by
  unfold declare
  simp only
  split
  · split <;> rfl
  · rfl

namespace Resolving
variable {α β γ : Type}

/-- Members resolved in turn, where each step gives a value with a known image and a property. -/
theorem mapM_gives {f : α → Resolving β} {image : β → γ} {known : α → γ}
    {P : β → Prop} {xs : List α}
    (each : ∀ x ∈ xs, ∀ t, image (f x t).1 = known x ∧ P (f x t).1) (t : Trail) :
    (xs.mapM f t).1.map image = xs.map known ∧ ∀ y ∈ (xs.mapM f t).1, P y := by
  induction xs generalizing t with
  | nil => exact ⟨rfl, fun y hy => by cases hy⟩
  | cons x more ih =>
    obtain ⟨same, holds⟩ := each x List.mem_cons_self t
    obtain ⟨others, rest⟩ := ih (fun z hz => each z (List.mem_cons_of_mem x hz)) (f x t).2
    rw [List.mapM_cons]
    refine ⟨congrArg₂ List.cons same others, fun y hy => ?_⟩
    rcases List.mem_cons.mp hy with rfl | later
    · exact holds
    · exact rest y later

end Resolving

namespace Setting
variable {s : Setting} {done : List String} {site : Site} {written : String} {t : TypeDecl}
  {sidecar : Sidecar} {space : String}

/-- Members whose names are resolved to expanded types have expanded types. -/
theorem expanded_resolveMembers {named : String → Resolving TypeRef}
    (each : ∀ name t, s.Expanded done (named name t).1) (members : List Host.Member) (t : Trail) :
    let made := (resolveMembers s.options named members t).1
    made.map (·.name) =
        (members.filter (!·.isIgnored)).map (fun m => m.serializedName?.getD m.name) ∧
      ∀ d ∈ made, s.Expanded done d.type := by
  refine Resolving.mapM_gives (fun m _ t => ?_) t
  rw [resolveMember_eq, Resolving.map_apply]
  refine ⟨Host.Member.name_declare _ m _, Expanded.declare ?_⟩
  cases m.subject? with
  | none => exact .flat TypeRef.depth_unknown
  | some name => exact each name t

theorem depth_assumedType (site : Site) (written : String) (t : Trail) :
    (s.assumedType site written t).1.depth = 0 := by
  rw [assumedType_apply rfl]
  unfold assumed
  simp only
  split <;> exact TypeRef.depth_plain _

theorem expanded_resolveName (done : List String) (site : Site) (written : String) (t : Trail) :
    s.Expanded done (s.resolveName done site written t).1 := by
  rw [resolveName_eq]
  cases h : s.sense done site written with
  | missing =>
    by_cases assumes : s.options.assumeExternalType = true
    · simp only [assumes, if_true]
      exact .flat (depth_assumedType site written t)
    · simp only [assumes]
      exact .flat TypeRef.depth_unknown
  | interface => exact .flat TypeRef.depth_unknown
  | declared key e => exact .flat (TypeRef.depth_plain _)
  | number => exact .flat (TypeRef.depth_plain _)
  | expanding e => exact .flat (TypeRef.depth_plain _)
  | inlined key e =>
    have := remaining_lt_of_inlined h
    obtain ⟨found, undeclared, fresh⟩ := undeclared_of_inlined h
    obtain ⟨names, inside⟩ := expanded_resolveMembers
      (fun name t => expanded_resolveName (key :: done) (s.siteIn site.module_ key e.host) name t)
      e.host.members t
    exact .shape found undeclared fresh names inside
termination_by s.remaining done

end Setting

end Ambient
