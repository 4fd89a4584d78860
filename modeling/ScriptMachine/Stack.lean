/-!
# Stacks

A stack grows and shrinks at its top. Every stack is empty or comes from a smaller one by a push,
and each operation is known by what it does to a pushed stack.

* `Stack.eq_empty_or_push`: the two shapes of a stack.
* `Stack.top?_eq_some_iff`, `Stack.topTwo?_eq_some_iff`: what is seen at the top was pushed there.
* `Stack.top?_eq_none_iff`, `Stack.topTwo?_eq_none_iff`: when there is too little to be seen.
-/

namespace ScriptMachine

/-- Entries one above the other, the top last. -/
structure Stack (α : Type) where
  entries : Array α
  deriving DecidableEq

namespace Stack

variable {α : Type}

def empty : Stack α := ⟨#[]⟩

instance : Inhabited (Stack α) := ⟨empty⟩

def size (s : Stack α) : Nat :=
  s.entries.size

/-- The entries from the bottom up. -/
def toList (s : Stack α) : List α :=
  s.entries.toList

def push (s : Stack α) (a : α) : Stack α :=
  ⟨s.entries.push a⟩

/-- The stack without its top; an empty stack stays empty. -/
def pop (s : Stack α) : Stack α :=
  ⟨s.entries.pop⟩

def top? (s : Stack α) : Option α :=
  s.entries.back?

/-- The two entries at the top, the upper one last. -/
def topTwo? (s : Stack α) : Option (α × α) :=
  if h : 2 ≤ s.entries.size then
    some (s.entries[s.entries.size - 2], s.entries[s.entries.size - 1])
  else none

/-- The stack with its top replaced; an empty stack stays empty. -/
def modifyTop (s : Stack α) (f : α → α) : Stack α :=
  match s.top? with
  | some a => s.pop.push (f a)
  | none => s

/-- A stack on top of another one. -/
def onTopOf (s base : Stack α) : Stack α :=
  ⟨base.entries ++ s.entries⟩

/-! ## Pushed stacks -/

/-- Nothing is on the empty stack. -/
@[simp] theorem size_empty : (empty : Stack α).size = 0 := rfl

/-- A push makes room for itself. -/
@[simp] theorem size_push (s : Stack α) (a : α) : (s.push a).size = s.size + 1 := by
  simp [size, push]

/-- An empty stack has nothing to lose, which is what truncated subtraction says. -/
@[simp] theorem size_pop (s : Stack α) : s.pop.size = s.size - 1 := by
  simp [size, pop]

/-- No pop makes a stack larger. -/
theorem size_pop_le (s : Stack α) : s.pop.size ≤ s.size := by
  rw [size_pop]
  exact Nat.sub_le _ 1

/-- What was pushed last is taken off first. -/
@[simp] theorem pop_push (s : Stack α) (a : α) : (s.push a).pop = s := by
  simp [push, pop]

/-- An empty stack has no top. -/
@[simp] theorem top?_empty : (empty : Stack α).top? = none := rfl

/-- What was pushed last is on top. -/
@[simp] theorem top?_push (s : Stack α) (a : α) : (s.push a).top? = some a := by
  simp [push, top?]

/-- The empty stack has no entries to list. -/
@[simp] theorem toList_empty : (empty : Stack α).toList = [] := rfl

/-- Entries are listed from the bottom, so a push is at the end of the list. -/
@[simp] theorem toList_push (s : Stack α) (a : α) : (s.push a).toList = s.toList ++ [a] := by
  simp [push, toList]

/-- Every entry is listed once. -/
@[simp] theorem length_toList (s : Stack α) : s.toList.length = s.size := by
  simp [toList, size]

/-- The top of the stack is the end of the list. -/
theorem getLast?_toList (s : Stack α) : s.toList.getLast? = s.top? := by
  simp [toList, top?]

/-- An empty stack has no top that could be replaced. -/
@[simp] theorem modifyTop_empty (f : α → α) : (empty : Stack α).modifyTop f = empty := rfl

/-- Only the top is replaced, and what is below it stays. -/
@[simp] theorem modifyTop_push (s : Stack α) (a : α) (f : α → α) :
    (s.push a).modifyTop f = s.push (f a) := by
  simp [modifyTop]

/-- An empty stack on top of another one is the other one. -/
@[simp] theorem empty_onTopOf (base : Stack α) : empty.onTopOf base = base := by
  simp [empty, onTopOf]

/-- What is pushed on the upper of two stacks is pushed on both together. -/
@[simp] theorem push_onTopOf (s base : Stack α) (a : α) :
    (s.push a).onTopOf base = (s.onTopOf base).push a := by
  simp [push, onTopOf]

/-- The lower of two stacks is listed first. -/
@[simp] theorem toList_onTopOf (s base : Stack α) :
    (s.onTopOf base).toList = base.toList ++ s.toList := by
  simp [toList, onTopOf]

/-- Two stacks have as many entries together as both. -/
@[simp] theorem size_onTopOf (s base : Stack α) : (s.onTopOf base).size = base.size + s.size := by
  simp [size, onTopOf]

/-- A push loses nothing: the stack below and the top can both be read off again. -/
theorem push_inj {s t : Stack α} {a b : α} : s.push a = t.push b ↔ s = t ∧ a = b := by
  constructor
  · intro h
    have hpop := congrArg pop h
    have htop := congrArg top? h
    simp only [pop_push, top?_push, Option.some.injEq] at hpop htop
    exact ⟨hpop, htop⟩
  · rintro ⟨rfl, rfl⟩
    rfl

/-- A pushed stack has an entry. -/
theorem push_ne_empty (s : Stack α) (a : α) : s.push a ≠ empty := by
  intro h
  have hsize := congrArg size h
  rw [size_push] at hsize
  cases hsize

/-- A stack is empty or is what a push made; other facts are proved by these two cases. -/
theorem eq_empty_or_push (s : Stack α) : s = empty ∨ ∃ (r : Stack α) (a : α), s = r.push a := by
  obtain ⟨entries⟩ := s
  by_cases h : entries = #[]
  · exact .inl (congrArg mk h)
  · obtain ⟨r, a, rfl⟩ := Array.exists_push_of_ne_empty h
    exact .inr ⟨⟨r⟩, a, rfl⟩

/-- A replaced top is still one entry. -/
@[simp] theorem size_modifyTop (s : Stack α) (f : α → α) : (s.modifyTop f).size = s.size := by
  rcases s.eq_empty_or_push with rfl | ⟨r, a, rfl⟩ <;> simp

/-- The top after a replacement is the image of the one before. -/
theorem top?_modifyTop (s : Stack α) (f : α → α) : (s.modifyTop f).top? = s.top?.map f := by
  rcases s.eq_empty_or_push with rfl | ⟨r, a, rfl⟩
  · rfl
  · rw [modifyTop_push, top?_push, top?_push, Option.map_some]

/-- Two replacements of the top are one, by both in turn. -/
theorem modifyTop_modifyTop (s : Stack α) (f g : α → α) :
    (s.modifyTop f).modifyTop g = s.modifyTop fun a => g (f a) := by
  rcases s.eq_empty_or_push with rfl | ⟨r, a, rfl⟩
  · rfl
  · rw [modifyTop_push, modifyTop_push, modifyTop_push]

/-- What is seen at the top was pushed there. -/
theorem top?_eq_some_iff {s : Stack α} {a : α} : s.top? = some a ↔ ∃ r : Stack α, s = r.push a := by
  constructor
  · intro h
    rcases s.eq_empty_or_push with rfl | ⟨r, b, rfl⟩
    · cases h
    · simp only [top?_push, Option.some.injEq] at h
      exact ⟨r, h ▸ rfl⟩
  · rintro ⟨r, rfl⟩
    exact top?_push r a

/-- A stack with a known top is its pop with the top pushed again. -/
theorem eq_push_pop_of_top? {s : Stack α} {a : α} (h : s.top? = some a) : s = s.pop.push a := by
  obtain ⟨r, rfl⟩ := top?_eq_some_iff.mp h
  rw [pop_push]

/-- Only a stack of size zero has no top. -/
theorem top?_eq_none_iff {s : Stack α} : s.top? = none ↔ s.size = 0 := by
  rcases s.eq_empty_or_push with rfl | ⟨r, b, rfl⟩ <;> simp

/-- Of the two entries at the top, the one pushed last is the right one. -/
@[simp] theorem topTwo?_push_push (s : Stack α) (a b : α) :
    ((s.push a).push b).topTwo? = some (a, b) := by
  simp [topTwo?, push, Array.getElem_push]

/-- Two entries are seen as soon as there are two. -/
theorem topTwo?_eq_none_iff {s : Stack α} : s.topTwo? = none ↔ s.size < 2 := by
  unfold topTwo? size
  split <;> simp <;> omega

/-- Two entries that are seen at the top were pushed there one after the other. -/
theorem topTwo?_eq_some_iff {s : Stack α} {a b : α} :
    s.topTwo? = some (a, b) ↔ ∃ r : Stack α, s = (r.push a).push b := by
  constructor
  · intro h
    -- take the stack apart twice; with fewer than two entries there is nothing to see
    rcases s.eq_empty_or_push with rfl | ⟨r, c, rfl⟩
    · cases h
    · rcases r.eq_empty_or_push with rfl | ⟨q, d, rfl⟩
      · cases h
      · simp only [topTwo?_push_push, Option.some.injEq, Prod.mk.injEq] at h
        exact ⟨q, h.1 ▸ h.2 ▸ rfl⟩
  · rintro ⟨r, rfl⟩
    exact topTwo?_push_push r a b

/-- A stack with two known entries at the top is what is left below them with both pushed again. -/
theorem eq_push_push_pop_pop_of_topTwo? {s : Stack α} {a b : α} (h : s.topTwo? = some (a, b)) :
    s = (s.pop.pop.push a).push b := by
  obtain ⟨r, rfl⟩ := topTwo?_eq_some_iff.mp h
  rw [pop_push, pop_push]

end Stack

end ScriptMachine
