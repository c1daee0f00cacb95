namespace ThreeAddress

variable {α : Type} [DecidableEq α]

/-- The nodes of `unseen` that the search enters, in the order of its visits, when it starts from
`pending` and goes on from `a` to the nodes of `next a`. -/
def explore (next : α → List α) (unseen pending : List α) : List α :=
  match pending with
  | [] => []
  | a :: rest =>
    if a ∈ unseen then a :: explore next (unseen.erase a) (next a ++ rest)
    else explore next unseen rest
termination_by (unseen.length, pending.length)
decreasing_by
  · have : 0 < unseen.length := List.length_pos_of_mem ‹_›
    simp only [List.length_erase_of_mem ‹a ∈ unseen›]
    exact Prod.Lex.left _ _ (by omega)
  · exact Prod.Lex.right _ (by simp)

end ThreeAddress
