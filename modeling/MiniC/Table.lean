/-!
# Tables

A table assigns values to names. It keeps the order in which the names were first put into it; a new
value for a name takes the place of the old one.
-/

namespace MiniC

abbrev Table (α : Type) := List (String × α)

namespace Table

variable {α : Type}

def get? : Table α → String → Option α
  | [], _ => none
  | (k, v) :: t, name => if k = name then some v else get? t name

def put : Table α → String → α → Table α
  | [], name, a => [(name, a)]
  | (k, v) :: t, name, a => if k = name then (k, a) :: t else (k, v) :: put t name a

def has (t : Table α) (name : String) : Bool :=
  (t.get? name).isSome

/-- The table that a list of pairs leaves when they are put one after the other. -/
def ofList (ps : List (String × α)) : Table α :=
  ps.foldl (fun t p => t.put p.1 p.2) []

theorem get?_put_self (t : Table α) (name : String) (a : α) :
    (t.put name a).get? name = some a := by
  induction t with
  | nil => simp [put, get?]
  | cons p t ih =>
    by_cases h : p.1 = name
    · simp [put, get?, h]
    · simp [put, get?, h, ih]

theorem get?_put_of_ne (t : Table α) {name other : String} (a : α) (h : name ≠ other) :
    (t.put name a).get? other = t.get? other := by
  induction t with
  | nil => simp [put, get?, h]
  | cons p t ih =>
    by_cases hp : p.1 = name
    · simp [put, get?, hp, h]
    · by_cases ho : p.1 = other
      · simp [put, get?, ho, Ne.symm h]
      · simp [put, get?, hp, ho, ih]

theorem mem_put {t : Table α} {name : String} {a : α} {f : String × α} (hf : f ∈ t.put name a) :
    f ∈ t ∨ f = (name, a) := by
  induction t with
  | nil => exact .inr (List.mem_singleton.1 hf)
  | cons p t ih =>
    rw [put] at hf
    split at hf
    · next h =>
      obtain rfl | hf := List.mem_cons.1 hf
      · exact .inr (by rw [h])
      · exact .inl (.tail _ hf)
    · obtain rfl | hf := List.mem_cons.1 hf
      · exact .inl List.mem_cons_self
      · exact (ih hf).imp (.tail _) id

theorem nodup_put {t : Table α} (ht : (t.map Prod.fst).Nodup) (name : String) (a : α) :
    ((t.put name a).map Prod.fst).Nodup := by
  induction t with
  | nil => simp [put]
  | cons p t ih =>
    obtain ⟨hp, ht⟩ := List.nodup_cons.1 ht
    rw [put]
    split
    · exact List.nodup_cons.2 ⟨hp, ht⟩
    · next h =>
      refine List.nodup_cons.2 ⟨fun hmem => ?_, ih ht⟩
      obtain ⟨f, hf, hfst⟩ := List.mem_map.1 hmem
      obtain hf | rfl := mem_put hf
      · exact hp (List.mem_map.2 ⟨f, hf, hfst⟩)
      · exact h hfst.symm

theorem mem_of_get? {t : Table α} {name : String} {a : α} (h : t.get? name = some a) :
    (name, a) ∈ t := by
  induction t with
  | nil => cases h
  | cons p t ih =>
    rw [get?] at h
    split at h
    · next hp =>
      obtain rfl := Option.some.inj h
      rw [← hp]
      exact List.mem_cons_self
    · exact .tail _ (ih h)

end Table

end MiniC
