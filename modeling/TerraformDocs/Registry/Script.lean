import TerraformDocs.Registry.Cache

/-!
# Scripted sources

A script is a version source whose answers are laid down beforehand: for each provider a list of
answers, of which each question takes the next.  It records the questions it has been asked.
-/

namespace TerraformDocs

structure VersionScript where
  answers : List (String × List (Option String))
  asked : List String
deriving DecidableEq, Repr

namespace VersionScript

def ofAnswers (answers : List (String × List (Option String))) : VersionScript := ⟨answers, []⟩

/-- Takes the next answer for a provider; one that is unknown or has none left gets nothing. -/
def source : VersionSource VersionScript := fun provider script =>
  let asked := script.asked ++ [provider.text]
  match script.answers.find? fun entry => entry.1 = provider.text with
  | some (_, answer :: later) =>
    let answers := script.answers.map fun entry =>
      if entry.1 = provider.text then (entry.1, later) else entry
    (answer, ⟨answers, asked⟩)
  | _ => (none, ⟨script.answers, asked⟩)

end VersionScript

end TerraformDocs
