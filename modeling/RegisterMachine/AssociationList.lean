namespace RegisterMachine

variable {α β : Type} [DecidableEq α]

/-- Gives a key a value, instead of the one it had. -/
def assign (entries : List (α × β)) (key : α) (value : β) : List (α × β) :=
  (key, value) :: entries.filter (·.1 ≠ key)

theorem nodup_assign {entries : List (α × β)} (h : (entries.map (·.1)).Nodup) (key : α)
    (value : β) : ((assign entries key value).map (·.1)).Nodup := by
  refine List.nodup_cons.mpr ⟨?_, h.sublist (List.filter_sublist.map _)⟩
  intro hmem
  obtain ⟨e, he, heq⟩ := List.mem_map.mp hmem
  have hne := (List.mem_filter.mp he).2
  simp [heq] at hne

variable [BEq α] [LawfulBEq α]

theorem lookup_cons_eq_ite (key : α) (e : α × β) (rest : List (α × β)) :
    (e :: rest).lookup key = if key = e.1 then some e.2 else rest.lookup key := by
  obtain ⟨first, value⟩ := e
  rw [List.lookup_cons]
  by_cases h : key = first
  · simp [h]
  · simp [h, beq_false_of_ne h]

theorem lookup_filter_ne (key dropped : α) (entries : List (α × β)) :
    (entries.filter (·.1 ≠ dropped)).lookup key =
      if key = dropped then none else entries.lookup key := by
  induction entries with
  | nil => simp
  | cons e rest ih =>
    rw [List.filter_cons, lookup_cons_eq_ite]
    by_cases hdropped : e.1 = dropped
    · rw [if_neg (by simp [hdropped]), ih]
      by_cases hkey : key = dropped
      · simp [hkey]
      · simp [hkey, hdropped]
    · rw [if_pos (by simp [hdropped]), lookup_cons_eq_ite, ih]
      by_cases hkey : key = dropped
      · subst hkey
        simp [Ne.symm hdropped]
      · simp [hkey]

theorem lookup_assign (entries : List (α × β)) (key : α) (value : β) (other : α) :
    (assign entries key value).lookup other =
      if other = key then some value else entries.lookup other := by
  rw [assign, lookup_cons_eq_ite, lookup_filter_ne]
  by_cases h : other = key
  · simp [h]
  · simp [h]

end RegisterMachine
