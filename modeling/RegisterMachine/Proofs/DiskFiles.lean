import RegisterMachine.Disk
import RegisterMachine.Proofs.ArgumentGrammar

namespace RegisterMachine.Disk

variable {d written : Disk} {place q : Place} {node : Node} {text : String} {bytes : List UInt8}

theorem directory_eq_ok_iff : d.directory q = .ok () ↔ d.node? q = some .directory := by
  unfold directory
  cases d.node? q with
  | none => simp
  | some node => cases node <;> simp

theorem lookup_put (d : Disk) (place q : Place) (node : Node) :
    (d.put place node).nodes.lookup q = if q = place then some node else d.nodes.lookup q :=
  lookup_assign d.nodes place node q

theorem node?_put_self : (d.put place node).node? place = some node := by
  rw [node?, lookup_put, if_pos rfl]

/-- A directory stays one if something is put at a place where there is none. -/
theorem node?_put_of_directory (node : Node) (hq : d.node? q = some .directory)
    (hplace : d.node? place ≠ some .directory) :
    (d.put place node).node? q = some .directory := by
  have hne : q ≠ place := by
    rintro rfl
    exact hplace hq
  unfold node? at hq ⊢
  rw [lookup_put, if_neg hne]
  cases hnode : d.nodes.lookup q with
  | some other =>
    rw [hnode] at hq
    exact hq
  | none =>
    -- The directory is there because of a node below it, which is still there or is the new one.
    rw [hnode] at hq
    have habove : d.nodes.any (q.isPrefixOf ·.1) = true := by
      by_contra hnot
      simp [hnot] at hq
    obtain ⟨e, he, hprefix⟩ := List.any_eq_true.mp habove
    refine if_pos (List.any_eq_true.mpr ?_)
    by_cases heq : e.1 = place
    · exact ⟨(place, node), List.mem_cons_self, heq ▸ hprefix⟩
    · exact ⟨e, List.mem_cons_of_mem _ (List.mem_filter.mpr ⟨he, by simpa using heq⟩), hprefix⟩

theorem enter_put (hplace : d.node? place ≠ some .directory) {name : String} {next : Place}
    (h : d.enter q name = .ok next) : (d.put place node).enter q name = .ok next := by
  obtain ⟨_, hdirectory, hname⟩ := bind_eq_ok_iff.mp h
  have hkept := node?_put_of_directory node (directory_eq_ok_iff.mp hdirectory) hplace
  exact bind_eq_ok_iff.mpr ⟨(), directory_eq_ok_iff.mpr hkept, hname⟩

/-- By induction on the names of the path, each of which leads on from a directory. -/
theorem foldlM_enter_put (hplace : d.node? place ≠ some .directory) {names : List String}
    {next : Place} (h : names.foldlM d.enter q = .ok next) :
    names.foldlM (d.put place node).enter q = .ok next := by
  induction names generalizing q with
  | nil => exact h
  | cons name rest ih =>
    rw [List.foldlM_cons] at h ⊢
    obtain ⟨between, hname, hrest⟩ := bind_eq_ok_iff.mp h
    exact bind_eq_ok_iff.mpr ⟨between, enter_put hplace hname, ih hrest⟩

theorem dropLast_append_last (names : List String) :
    names.dropLast ++ names.getLast?.toList = names := by
  rcases List.eq_nil_or_concat names with rfl | ⟨rest, name, rfl⟩
  · rfl
  · simp

/-- The place that a path leads to from the working directory. -/
def placeOf (d : Disk) (text : String) : Except DiskError Place := do
  let path ← Path.ofText text
  path.names.foldlM d.enter (d.start path)

/-- The path leads to a device. -/
def LeadsToDevice (d : Disk) (text : String) : Prop :=
  ∃ place room, d.placeOf text = .ok place ∧ d.node? place = some (.device room)

theorem not_leadsToDevice_of_node?_eq_none (hplace : d.placeOf text = .ok place)
    (hnode : d.node? place = none) : ¬d.LeadsToDevice text := by
  rintro ⟨other, room, hother, hdevice⟩
  cases hplace.symm.trans hother
  rw [hnode] at hdevice
  cases hdevice

/-- What is written at the path is read there afterwards. -/
def ReturnsWritten (d : Disk) (text : String) : Prop :=
  ∀ bytes written, d.write text bytes = .ok written → written.read text = .ok bytes

/-- What a write that goes well has done. -/
theorem write_cases (h : d.write text bytes = .ok written) :
    ∃ path place, Path.ofText text = .ok path ∧ path.toDirectory = false ∧
      path.names.foldlM d.enter (d.start path) = .ok place ∧
      ((∃ room, d.node? place = some (.device room) ∧ written = d) ∨
        d.node? place ≠ some .directory ∧ written = d.put place (.file bytes)) := by
  obtain ⟨path, hpath, h⟩ := bind_eq_ok_iff.mp h
  obtain ⟨parent, hparent, h⟩ := bind_eq_ok_iff.mp h
  obtain ⟨_, _, h⟩ := bind_eq_ok_iff.mp h
  split at h
  next => cases h
  next hfile =>
    obtain ⟨place, hplace, h⟩ := bind_eq_ok_iff.mp h
    have hfollowed : path.names.foldlM d.enter (d.start path) = .ok place := by
      rw [← dropLast_append_last path.names, List.foldlM_append]
      exact bind_eq_ok_iff.mpr ⟨parent, hparent, hplace⟩
    refine ⟨path, place, hpath, Bool.eq_false_iff.mpr hfile, hfollowed, ?_⟩
    split at h
    next => cases h
    next room hnode =>
      split at h
      next =>
        cases h
        exact .inl ⟨room, hnode, rfl⟩
      next => cases h
    next hdirectory _ =>
      cases h
      exact .inr ⟨hdirectory, rfl⟩

theorem read_of_file {path : Path} (hpath : Path.ofText text = .ok path)
    (hfile : path.toDirectory = false)
    (hplace : path.names.foldlM d.enter (d.start path) = .ok place)
    (hnode : d.node? place = some (.file bytes)) : d.read text = .ok bytes := by
  unfold read
  refine bind_eq_ok_iff.mpr ⟨path, hpath, bind_eq_ok_iff.mpr ⟨place, hplace, ?_⟩⟩
  rw [hfile, hnode]
  rfl

/-- The file system gives back the bytes last written, unless it was a device that took them. -/
theorem returnsWritten_of_not_device (h : ¬d.LeadsToDevice text) : d.ReturnsWritten text := by
  intro bytes written hwrite
  obtain ⟨path, place, hpath, hfile, hplace, ⟨room, hdevice, _⟩ | ⟨hdirectory, rfl⟩⟩ :=
    write_cases hwrite
  · exact absurd ⟨place, room, bind_eq_ok_iff.mpr ⟨path, hpath, hplace⟩, hdevice⟩ h
  · exact read_of_file hpath hfile (foldlM_enter_put hdirectory hplace) node?_put_self

end RegisterMachine.Disk
