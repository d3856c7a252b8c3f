namespace DocMarks.Entries

variable {α β : Type} [DecidableEq α]

def keys (es : List (α × β)) : List α := es.map Prod.fst

def get? (es : List (α × β)) (k : α) : Option β :=
  match es with
  | [] => none
  | (k', v) :: rest => if k' = k then some v else get? rest k

def contains (es : List (α × β)) (k : α) : Bool := (get? es k).isSome

def put (es : List (α × β)) (k : α) (v : β) : List (α × β) :=
  match es with
  | [] => [(k, v)]
  | (k', v') :: rest => if k' = k then (k', v) :: rest else (k', v') :: put rest k v

def ofList (es : List (α × β)) : List (α × β) :=
  es.foldl (fun acc e => put acc e.1 e.2) []

theorem mem_of_get? {es : List (α × β)} {k : α} {v : β} (h : get? es k = some v) :
    (k, v) ∈ es := by
  induction es with
  | nil => simp [get?] at h
  | cons e rest ih =>
    obtain ⟨k₀, v₀⟩ := e
    by_cases hk : k₀ = k
    · simp only [get?, hk, if_true, Option.some.injEq] at h
      simp [hk, h]
    · simp only [get?, hk, if_false] at h
      exact List.mem_cons_of_mem _ (ih h)

theorem mem_put {es : List (α × β)} {k : α} {v : β} {e : α × β} (h : e ∈ put es k v) :
    e ∈ es ∨ e = (k, v) := by
  induction es with
  | nil => exact .inr (by simpa [put] using h)
  | cons e' rest ih =>
    obtain ⟨k₀, v₀⟩ := e'
    rw [put] at h
    split at h
    case isTrue hk =>
      cases h with
      | head => exact .inr (by rw [hk])
      | tail _ h => exact .inl (.tail _ h)
    case isFalse =>
      cases h with
      | head => exact .inl (.head _)
      | tail _ h => exact (ih h).imp (.tail _) id

theorem get?_put (es : List (α × β)) (k k' : α) (v : β) :
    get? (put es k v) k' = if k = k' then some v else get? es k' := by
  induction es with
  | nil => simp [put, get?]
  | cons e rest ih =>
    obtain ⟨k₀, v₀⟩ := e
    by_cases h : k₀ = k <;> by_cases h' : k₀ = k' <;> by_cases h'' : k = k' <;>
      simp_all [put, get?]

theorem keys_put (es : List (α × β)) (k : α) (v : β) :
    keys (put es k v) = if k ∈ keys es then keys es else keys es ++ [k] := by
  induction es with
  | nil => simp [put, keys]
  | cons e rest ih =>
    obtain ⟨k₀, v₀⟩ := e
    have ih' : (put rest k v).map Prod.fst =
        if k ∈ rest.map Prod.fst then rest.map Prod.fst else rest.map Prod.fst ++ [k] := ih
    by_cases h : k₀ = k
    · simp [put, keys, h]
    · have h' : k ≠ k₀ := fun e => h e.symm
      by_cases m : k ∈ rest.map Prod.fst
      · simp only [put, h, if_false, keys, List.map_cons, ih', m, if_true, List.mem_cons, h',
          false_or]
      · simp only [put, h, if_false, keys, List.map_cons, ih', m, List.mem_cons, h', or_self,
          List.cons_append]

end DocMarks.Entries
