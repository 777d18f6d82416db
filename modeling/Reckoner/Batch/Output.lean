/-!
# Outputs of batches

The values that a batch commits, by name. A name keeps the place of its first
value and holds its last one. Nodes without a name count as evaluated and commit
nothing.

* `get?_insert_self`, `get?_insert_of_ne`: a name holds what is inserted last.
-/

namespace Reckoner

/-- Values by name in the order of first insertion, and the number of nodes
evaluated. The values are searched for a name; `IndexedOutput` is an output that is kept
with an index of their positions. -/
structure BatchOutput where
  values : List (String × Float)
  evaluated : Nat
  deriving DecidableEq

namespace BatchOutput

/-- The output of no node. -/
def empty : BatchOutput := ⟨[], 0⟩

/-- The value of a name. -/
def get? (o : BatchOutput) (name : String) : Option Float :=
  o.values.lookup name

/-- The list with a value for a name, in place of the one it has or at the end. -/
def put (name : String) (x : Float) : List (String × Float) → List (String × Float)
  | [] => [(name, x)]
  | (n, y) :: rest => if name = n then (n, x) :: rest else (n, y) :: put name x rest

/-- The output with a value for a name. -/
def insert (o : BatchOutput) (name : String) (x : Float) : BatchOutput :=
  { o with values := put name x o.values }

/-- The output with a further node evaluated, whose value is committed if the
node has a name. -/
def record (o : BatchOutput) (name : Option String) (x : Float) : BatchOutput :=
  let o := { o with evaluated := o.evaluated + 1 }
  match name with
  | some name => o.insert name x
  | none => o

/-- The number of names. -/
def size (o : BatchOutput) : Nat :=
  o.values.length

theorem lookup_put_self (name : String) (x : Float) (l : List (String × Float)) :
    (put name x l).lookup name = some x := by
  induction l with
  | nil => simp [put]
  | cons e rest ih =>
    obtain ⟨n, y⟩ := e
    rw [put]
    split
    · next h => simp [h]
    · next h => rw [List.lookup_cons, beq_false_of_ne h, ih]

theorem lookup_put_of_ne {name other : String} (hne : other ≠ name) (x : Float)
    (l : List (String × Float)) : (put name x l).lookup other = l.lookup other := by
  induction l with
  | nil => rw [put, List.lookup_cons, beq_false_of_ne hne]
  | cons e rest ih =>
    obtain ⟨n, y⟩ := e
    rw [put]
    split
    · next h => rw [List.lookup_cons, List.lookup_cons, beq_false_of_ne (h ▸ hne)]
    · rw [List.lookup_cons, List.lookup_cons, ih]

/-- A name that has no value gets it at the end. -/
theorem put_of_notMem {name : String} {l : List (String × Float)} (h : name ∉ l.map Prod.fst)
    (x : Float) : put name x l = l ++ [(name, x)] := by
  induction l with
  | nil => rfl
  | cons e rest ih =>
    obtain ⟨n, y⟩ := e
    rw [List.map_cons, List.mem_cons, not_or] at h
    rw [put, if_neg h.1, ih h.2, List.cons_append]

@[simp] theorem get?_insert_self (o : BatchOutput) (name : String) (x : Float) :
    (o.insert name x).get? name = some x :=
  lookup_put_self name x o.values

theorem get?_insert_of_ne (o : BatchOutput) {name other : String} (h : other ≠ name) (x : Float) :
    (o.insert name x).get? other = o.get? other :=
  lookup_put_of_ne h x o.values

end BatchOutput

end Reckoner
