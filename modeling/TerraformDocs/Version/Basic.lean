/-!
# Versions

A version has three numeric components and an optional prerelease tag, which is kept verbatim.
The order compares the components as numbers; a release comes after its prereleases, and two tags
compare as plain text.  This is coarser than semantic versioning, which compares tags identifier by
identifier.  Main statement: two versions compare equal only if they are the same.
-/

namespace TerraformDocs

structure Version where
  major : Nat
  minor : Nat
  patch : Nat
  prerelease : Option String
deriving DecidableEq, Repr

namespace Version

def compareTags : Option String → Option String → Ordering
  | none, none => .eq
  | none, some _ => .gt
  | some _, none => .lt
  | some a, some b => compare a b

instance : Ord Version where
  compare a b :=
    (compare a.major b.major).then <| (compare a.minor b.minor).then <|
      (compare a.patch b.patch).then <| compareTags a.prerelease b.prerelease

instance : LE Version := leOfOrd

instance : LT Version := ltOfOrd

def text (v : Version) : String :=
  v.major.repr ++ "." ++ v.minor.repr ++ "." ++ v.patch.repr ++
    match v.prerelease with
    | none => ""
    | some tag => "-" ++ tag

instance : ToString Version := ⟨text⟩

theorem compareTags_eq_iff {a b : Option String} : compareTags a b = .eq ↔ a = b := by
  cases a <;> cases b <;> simp [compareTags]

theorem compare_def (a b : Version) : compare a b =
    (compare a.major b.major).then ((compare a.minor b.minor).then
      ((compare a.patch b.patch).then (compareTags a.prerelease b.prerelease))) := rfl

theorem compare_eq_iff {a b : Version} : compare a b = .eq ↔ a = b := by
  cases a; cases b
  rw [compare_def]
  simp [Ordering.then_eq_eq, compareTags_eq_iff]

end Version

end TerraformDocs
