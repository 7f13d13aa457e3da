/-!
Queues.  What waits is taken from the front; new elements go to the back, which is kept in reverse
until the front is used up.
-/

namespace TraceLoom

structure Queue (α : Type) where
  front : List α
  /-- What follows the front, the latest first. -/
  back : List α

namespace Queue

variable {α : Type}

def empty : Queue α :=
  ⟨[], []⟩

/-- What waits, in order. -/
def toList (q : Queue α) : List α :=
  q.front ++ q.back.reverse

def push (x : α) (q : Queue α) : Queue α :=
  { q with back := x :: q.back }

/-- The first element and the others, if there is one. -/
def pop? (q : Queue α) : Option (α × Queue α) :=
  match q.front with
  | x :: front => some (x, { q with front })
  | [] =>
    match q.back.reverse with
    | [] => none
    | x :: front => some (x, ⟨front, []⟩)

@[simp] theorem toList_empty : (empty : Queue α).toList = [] := rfl

@[simp] theorem toList_push (x : α) (q : Queue α) : (q.push x).toList = q.toList ++ [x] := by
  simp [toList, push]

theorem pop?_eq_none_iff {q : Queue α} : q.pop? = none ↔ q.toList = [] := by
  obtain ⟨front, back⟩ := q
  cases front with
  | cons x rest => simp [pop?, toList]
  | nil =>
    cases h : back.reverse with
    | nil => simp [pop?, toList, h]
    | cons x rest => simp [pop?, toList, h]

theorem toList_of_pop? {q rest : Queue α} {x : α} (h : q.pop? = some (x, rest)) :
    q.toList = x :: rest.toList := by
  obtain ⟨front, back⟩ := q
  cases front with
  | cons y ys =>
    simp only [pop?, Option.some.injEq, Prod.mk.injEq] at h
    obtain ⟨rfl, rfl⟩ := h
    rfl
  | nil =>
    cases hb : back.reverse with
    | nil => simp [pop?, hb] at h
    | cons y ys =>
      simp only [pop?, hb, Option.some.injEq, Prod.mk.injEq] at h
      obtain ⟨rfl, rfl⟩ := h
      simp [toList, hb]

end Queue

end TraceLoom
