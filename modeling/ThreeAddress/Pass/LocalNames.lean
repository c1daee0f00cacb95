import ThreeAddress.Pass.Basic

namespace ThreeAddress

namespace LocalNames

def numbered (name : String) (n : Nat) : String := name ++ "_" ++ toString n

/-- The first number from `start` on whose name is not taken. As many numbers as there are names
taken, and one more, are enough to find it. -/
def freeNumber (taken : List String) (name : String) (start : Nat) : Nat :=
  ((List.range' start (taken.length + 1)).find? fun n ↦ !taken.contains (numbered name n)).getD
    (start + taken.length)

/-- Renames the locals that repeat a name of `taken` or of an earlier local, with numbers from
`start` on, and notes each renaming. -/
def disambiguate (taken : List String) (start : Nat) : List Local → List Local × List Note
  | [] => ([], [])
  | l :: ls =>
    if taken.contains l.name then
      let n := freeNumber taken l.name start
      let name := numbered l.name n
      let (ls, notes) := disambiguate (name :: taken) (n + 1) ls
      ({ l with name } :: ls,
        ⟨.localRenamed, none, l.id.text ++ " " ++ l.name ++ " renamed to " ++ name⟩ :: notes)
    else
      let (ls, notes) := disambiguate (l.name :: taken) start ls
      (l :: ls, notes)

def revise (b : Body) : Revision :=
  let (locals, notes) := disambiguate [] 0 b.locals
  (⟨b, [], false⟩ : Revision).withNotes { b with locals } notes

end LocalNames

def Pass.localNames : Pass where
  name := "name-disambiguation"
  description := "Renames locals so that no two share a name"
  run _ b := (LocalNames.revise b).finish

end ThreeAddress
