import ScriptMachine.Proofs.Extensions

/-!
# Ids of routines

The id of a routine that is added is the number of routines before it, as long as that number is
one of 32 bits. So ids go up one by one and none is given twice. What is found under an id is the
routine that it was given for, whatever is added later, and nothing is found under it before. Once
every id is given, no routine is added.

* `Program.routine?_of_add?`: one more routine.
* `addAll_of_room`, `toNat_index_addAll`: several routines, with an id for each.
* `routine?_of_given`, `routine?_of_not_given`: what is found under an id.
* `ids_sequential_and_stable`: all of it.
-/

namespace ScriptMachine

namespace Program

variable {p q : Program} {id : RoutineId} {r : Routine} {rs : List Routine}

/-! ## One more routine -/

/-- The routine is found under its id, and under every other id what was found there. -/
theorem routine?_of_add? (h : p.add? r = (some id, q)) (other : RoutineId) :
    q.routine? other = if other = id then some r else p.routine? other := by
  obtain ⟨hid, rfl⟩ := add?_eq_some_iff.mp h
  show (p.routines.push r)[other.index.toNat]? = _
  have hother : other.index.toNat = p.routines.size ↔ other = id := by
    rw [← RoutineId.toNat_index_inj, hid]
    rfl
  simp only [Array.getElem?_push, hother]
  rfl

/-! ## Several routines -/

/-- As long as there are ids, every routine is added, and the ids are the numbers from the number of
routines that there were. -/
theorem addAll_of_room (hroom : p.size + rs.length ≤ UInt32.size) :
    p.addAll rs =
      ((List.range' p.size rs.length).map (⟨.ofNat ·⟩), ⟨p.routines ++ rs.toArray⟩) := by
  induction rs generalizing p with
  | nil => rw [addAll, Array.append_empty]; rfl
  | cons r rs ih =>
    rw [List.length_cons] at hroom
    have hsize : size ⟨p.routines.push r⟩ = p.size + 1 := Array.size_push r
    have hrest := ih (p := ⟨p.routines.push r⟩) (by omega)
    have hroutines : p.routines.push r ++ rs.toArray = p.routines ++ (r :: rs).toArray := by
      rw [List.toArray_cons, Array.push_eq_append, Array.append_assoc]
    -- there is room for this routine, so its id does not wrap
    have hindex : (⟨.ofNat p.size⟩ : RoutineId).index.toNat = p.size :=
      UInt32.toNat_ofNat_of_lt' (by omega)
    rw [addAll_cons (add?_eq_some_iff.mpr ⟨hindex, rfl⟩), hrest, hsize, hroutines,
      List.length_cons, List.range'_succ, List.map_cons]
    rfl

/-- None of the ids wraps. -/
theorem toNat_index_addAll (hroom : p.size + rs.length ≤ UInt32.size) :
    (p.addAll rs).1.map (·.index.toNat) = List.range' p.size rs.length := by
  rw [addAll_of_room hroom, List.map_map]
  refine (List.map_congr_left fun k hk => ?_).trans (List.map_id _)
  have hlt : k < p.size + rs.length := (List.mem_range'_1.mp hk).2
  exact UInt32.toNat_ofNat_of_lt' (Nat.lt_of_lt_of_le hlt hroom)

/-! ## What is found under an id -/

/-- The ids are those of the first routines, in their order. -/
theorem routine?_of_given {k : Nat} (h : (p.addAll rs).1[k]? = some id) :
    ∃ r, rs[k]? = some r ∧ (p.addAll rs).2.routine? id = some r := by
  induction rs generalizing p k with
  | nil => cases h
  | cons r rs ih =>
    rcases hadd : p.add? r with ⟨_ | new, q⟩
    · -- a program that is full stays full, so the later routines get no id either
      rw [addAll_of_full (add?_eq_none_iff.mp hadd).1] at h
      cases h
    · rw [addAll_cons hadd, Option.toList_some, List.singleton_append] at h ⊢
      cases k with
      | zero =>
        cases h
        have hfound : q.routine? id = some r := by rw [routine?_of_add? hadd, if_pos rfl]
        -- and what is added later leaves it alone
        exact ⟨r, rfl, q.extends_addAll rs id r hfound⟩
      | succ k => exact ih h

/-- Under an id that none of the routines got there is what was there before. -/
theorem routine?_of_not_given (h : id ∉ (p.addAll rs).1) :
    (p.addAll rs).2.routine? id = p.routine? id := by
  induction rs generalizing p with
  | nil => rfl
  | cons r rs ih =>
    rcases hadd : p.add? r with ⟨_ | new, q⟩
    · rw [addAll_of_full (add?_eq_none_iff.mp hadd).1]
    · rw [addAll_cons hadd, Option.toList_some, List.singleton_append] at h ⊢
      -- the id is neither that of the first routine nor one of the later ones
      obtain ⟨hnew, hrest⟩ := not_or.mp (mt List.mem_cons.mpr h)
      rw [ih hrest, routine?_of_add? hadd, if_neg hnew]

/-- From a program without routines on, an id is known just if it has been given. -/
theorem routine?_addAll_empty_eq_none_iff :
    (empty.addAll rs).2.routine? id = none ↔ id ∉ (empty.addAll rs).1 := by
  constructor
  · intro hnone hgiven
    obtain ⟨k, hk⟩ := List.mem_iff_getElem?.mp hgiven
    obtain ⟨r, -, hr⟩ := routine?_of_given hk
    rw [hnone] at hr
    cases hr
  · intro h
    rw [routine?_of_not_given h, routine?_eq_none_of_size rfl]

/-- Routines that are added to a program without any get the ids from 0 on in order, up to one for
every number of 32 bits, and make the program of all of them. Whatever program has given an id, what
is found under it is the routine that it was given for, however many routines are added afterwards;
nothing is found under an id that has not been given yet. A program with a routine for every id, or
more, takes no further one and stays as it is. -/
theorem ids_sequential_and_stable :
    (∀ rs : List Routine, rs.length ≤ UInt32.size →
      (empty.addAll rs).1.map (·.index.toNat) = List.range rs.length ∧
        (empty.addAll rs).2 = ofList rs) ∧
    (∀ (p : Program) (rs further : List Routine) (k : Nat) (id : RoutineId),
      (p.addAll rs).1[k]? = some id →
        ∃ r, rs[k]? = some r ∧ ((p.addAll rs).2.addAll further).2.routine? id = some r) ∧
    (∀ (rs : List Routine) (id : RoutineId),
      (empty.addAll rs).2.routine? id = none ↔ id ∉ (empty.addAll rs).1) ∧
    ∀ p : Program, UInt32.size ≤ p.size →
      ∀ r, p.add? r = (none, p) ∧ ∀ rs, p.addAll rs = ([], p) := by
  refine ⟨fun rs hrs => ?_, fun p rs further k id hid => ?_, fun rs id => ?_, fun p hfull r => ?_⟩
  · have hroom : empty.size + rs.length ≤ UInt32.size := by
      show 0 + rs.length ≤ UInt32.size
      omega
    refine ⟨(toNat_index_addAll hroom).trans List.range_eq_range'.symm, ?_⟩
    rw [addAll_of_room hroom]
    exact congrArg Program.mk Array.empty_append
  · obtain ⟨r, hr, hfound⟩ := routine?_of_given hid
    exact ⟨r, hr, extends_addAll _ further id r hfound⟩
  · exact routine?_addAll_empty_eq_none_iff
  · exact ⟨add?_eq_none_iff.mpr ⟨hfull, rfl⟩, addAll_of_full hfull⟩

/-- Two routines get the ids 0 and 1. The second one is still found under its id when there is a
third, and nothing is found under the id 2 before. Up to 2 ^ 32 routines get an id; a program of so
many takes no further one. -/
theorem ids_sequential_and_stable_used_up :
    let two : List Routine := [⟨"main", #[]⟩, ⟨"helper", #[.synthetic .pop]⟩]
    let third : Routine := ⟨"third", #[]⟩
    let many := List.replicate UInt32.size third
    (empty.addAll two).1.map (·.index.toNat) = [0, 1] ∧
      ((empty.addAll two).2.addAll [third]).2.routine? ⟨1⟩ = two[1]? ∧
      (empty.addAll two).2.routine? ⟨2⟩ = none ∧
      (empty.addAll many).1.map (·.index.toNat) = List.range UInt32.size ∧
      (empty.addAll many).2.add? third = (none, (empty.addAll many).2) ∧
      (empty.addAll many).2.addAll two = ([], (empty.addAll many).2) := by
  intro two third many
  obtain ⟨hbuilt, hstable, hunknown, hfull⟩ := ids_sequential_and_stable
  have hgiven : (empty.addAll two).1 = [⟨0⟩, ⟨1⟩] := rfl
  have hlength : many.length = UInt32.size := List.length_replicate
  obtain ⟨hids, hprogram⟩ := hbuilt many (Nat.le_of_eq hlength)
  -- the program has a routine for each id
  have hsize : UInt32.size ≤ (empty.addAll many).2.size := by
    rw [hprogram]
    exact Nat.le_of_eq (hlength.symm.trans List.size_toArray.symm)
  refine ⟨(hbuilt two (by decide)).1, ?_, (hunknown two ⟨2⟩).mpr ?_, ?_, (hfull _ hsize third).1,
    (hfull _ hsize third).2 two⟩
  · obtain ⟨r, hr, hfound⟩ := hstable empty two [third] 1 ⟨1⟩ (by rw [hgiven]; rfl)
    rw [hfound, hr]
  · rw [hgiven]
    decide
  · rw [hids, hlength]

end Program

end ScriptMachine
