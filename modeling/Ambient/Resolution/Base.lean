import Ambient.Resolution.Member

/-! The base of a declared class: the first declared class among its bases, where an undeclared
class stands for its own bases. Interfaces are passed over. -/
namespace Ambient

/-- What a search for a base finds: a declared class, or the home of one that is only known. -/
inductive FoundBase where
  | declared (key : String) (e : Entry)
  | known (home : TypeHome)
  deriving Repr

namespace Setting

/-- Searches the bases in `work` in order, those of an undeclared class before what follows it.
`visited` holds the undeclared classes met so far. -/
def searchBase (s : Setting) (sidecar : Sidecar) (visited : List String) :
    List (Site × String) → Option FoundBase
  | [] => none
  | (site, written) :: work =>
    match TypeSyntax.parse written with
    | .ok (.named name _) =>
      if (KnownType.primitive? name).isSome then s.searchBase sidecar visited work
      else match h : s.lookup? site name with
        | some (key, e) =>
          if e.host.kind ≠ .classKind then s.searchBase sidecar visited work
          else if e.isDeclared then some (.declared key e)
          else if hv : visited.contains key then s.searchBase sidecar visited work
          else
            have := remaining_lt (mem_keys_of_lookup? h) hv
            let inner := s.siteIn site.module_ key e.host
            s.searchBase sidecar (key :: visited) (e.host.bases.map (inner, ·) ++ work)
        | none =>
          match sidecar.findHome? name with
          | some home =>
            if s.options.assumeExternalType then some (.known home)
            else s.searchBase sidecar visited work
          | none => s.searchBase sidecar visited work
    | _ => s.searchBase sidecar visited work
termination_by work => (s.remaining visited, work.length)

def resolveBase (s : Setting) (site : Site) (bases : List String) :
    Resolving (Option QualifiedName) := do
  match s.searchBase (← get).sidecar [] (bases.map (site, ·)) with
  | none => return none
  | some (.declared key e) =>
    s.addReference key e
    return some ⟨s.moduleName e.host.space, e.host.name⟩
  | some (.known home) =>
    Resolving.refer (s.homeOutput home)
    let ⟨space, name⟩ := splitQualified home.typeName
    return some ⟨s.moduleName space, name⟩

end Setting

end Ambient
