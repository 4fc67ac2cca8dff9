import Mathlib.Algebra.Order.Ring.Int
import Mathlib.Data.List.Basic

/-!
# Paths

`std::path` as far as the program uses it: absolute paths, `join` and `components`.
Two paths are equal, and hash equal, when their components are, so a path is its
components here, and the inode table can be a map from paths without a quotient.
Repeated and trailing slashes and `.` leave no component; `..` leaves one of its own,
since `std::path` does not resolve it.

The kernel never sends a name with a slash, and never `.` or `..`. A server can, in the
name of a table, and `readdir` joins such a name like any other: `join` is therefore
defined for every string, and `IsName` singles out those for which it adds one component.
-/

set_option autoImplicit false

namespace ClickFs

inductive Component
  | normal (name : String)
  | parentDir
deriving DecidableEq, Repr

/-- An absolute path: the components after `RootDir`. -/
structure PathBuf where
  comps : List Component
deriving DecidableEq, Repr

namespace PathBuf

/-- "/" -/
def root : PathBuf := ⟨[]⟩

/-- The component between two slashes. -/
def component (part : List Char) : Option Component :=
  if part = [] ∨ part = ['.'] then none
  else if part = ['.', '.'] then some .parentDir
  else some (.normal (String.ofList part))

/-- `Path::new(name).components()`, without the leading `RootDir` or `CurDir` -/
def components (name : String) : List Component :=
  (name.toList.splitOn '/').filterMap component

/-- `Path::join`: an absolute name replaces the path it is joined to. -/
def join (path : PathBuf) (name : String) : PathBuf :=
  if name.toList.head? = some '/' then ⟨components name⟩ else ⟨path.comps ++ components name⟩

/-- The names that are one component: what a directory entry can be called, and what the kernel
    looks up. -/
structure IsName (name : String) : Prop where
  noSlash : '/' ∉ name.toList
  ne_nil : name ≠ ""
  ne_dot : name ≠ "."
  ne_dotdot : name ≠ ".."

instance (name : String) : Decidable (IsName name) :=
  decidable_of_iff ('/' ∉ name.toList ∧ name ≠ "" ∧ name ≠ "." ∧ name ≠ "..")
    ⟨fun ⟨h₁, h₂, h₃, h₄⟩ => ⟨h₁, h₂, h₃, h₄⟩, fun h => ⟨h.noSlash, h.ne_nil, h.ne_dot, h.ne_dotdot⟩⟩

theorem component_of_isName {name : String} (h : IsName name) :
    component name.toList = some (.normal name) := by
  have hne {t : String} (hne : name ≠ t) : name.toList ≠ t.toList := fun h =>
    hne (String.toList_inj.mp h)
  have hnil : name.toList ≠ [] := hne h.ne_nil
  have hdot : name.toList ≠ ['.'] := hne h.ne_dot
  have hdotdot : name.toList ≠ ['.', '.'] := hne h.ne_dotdot
  rw [component, if_neg (fun hor => hor.elim hnil hdot), if_neg hdotdot, String.ofList_toList]

theorem components_of_isName {name : String} (h : IsName name) :
    components name = [.normal name] := by
  rw [components, List.splitOn_eq_singleton h.noSlash,
    List.filterMap_cons_some (component_of_isName h), List.filterMap_nil]

/-- Joining a name adds one component. For any other string it adds none, several, or starts over.
    -/
theorem join_of_isName {path : PathBuf} {name : String} (h : IsName name) :
    path.join name = ⟨path.comps ++ [.normal name]⟩ := by
  have hrel : name.toList.head? ≠ some '/' := fun hhead => h.noSlash (List.mem_of_head? hhead)
  rw [join, if_neg hrel, components_of_isName h]

example : (root.join "db").join "a//b/./c" = ⟨[.normal "db", .normal "a", .normal "b", .normal "c"]⟩ := by
  decide

end PathBuf
end ClickFs
