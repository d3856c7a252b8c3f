import DocMarks.Entries

theorem DocMarks.eq_of_map_eq {α β : Type} {f : α → β} {xs ys : List α}
    (inj : ∀ x ∈ xs, ∀ y ∈ ys, f x = f y → x = y) (h : xs.map f = ys.map f) : xs = ys := by
  induction xs generalizing ys with
  | nil => exact (List.map_eq_nil_iff.1 h.symm).symm
  | cons x xs ih =>
    obtain ⟨y, ys, rfl, first, rest⟩ := List.map_eq_cons_iff.1 h.symm
    rw [inj x (.head _) y (.head _) first.symm,
      ih (fun x hx y hy => inj x (.tail _ hx) y (.tail _ hy)) rest.symm]

theorem DocMarks.eq_map_of_cons {α β : Type} {f : List α → List β} {g : α → β} (nil : f [] = [])
    (cons : ∀ x xs, f (x :: xs) = g x :: f xs) (xs : List α) : f xs = xs.map g := by
  induction xs with
  | nil => exact nil
  | cons x xs ih => rw [cons, ih, List.map_cons]

theorem DocMarks.le_iff_of_max {α : Type} {f : List α → Nat} {g : α → Nat} (nil : f [] = 0)
    (cons : ∀ x xs, f (x :: xs) = max (g x) (f xs)) {xs : List α} {n : Nat} :
    f xs ≤ n ↔ ∀ x ∈ xs, g x ≤ n := by
  induction xs with
  | nil => simp [nil]
  | cons x xs ih => rw [cons, Nat.max_le, ih, List.forall_mem_cons]

namespace DocMarks.Entries

variable {α β : Type} {es : List (α × β)}

theorem not_mem_keys_of_nodup {e : α × β} {rest : List (α × β)}
    (nodup : (keys (es ++ e :: rest)).Nodup) : e.1 ∉ keys es := by
  rw [keys, List.map_append, List.nodup_append] at nodup
  exact fun h => nodup.2.2 _ h _ (.head _) rfl

variable [DecidableEq α] {k : α}

theorem put_of_not_mem (v : β) (new : k ∉ keys es) : put es k v = es ++ [(k, v)] := by
  induction es with
  | nil => rfl
  | cons e rest ih =>
    have new : k ≠ e.1 ∧ k ∉ keys rest := by simpa [keys] using new
    rw [put, if_neg (Ne.symm new.1), ih new.2, List.cons_append]

theorem nodup_keys_put (k : α) (v : β) (nodup : (keys es).Nodup) : (keys (put es k v)).Nodup := by
  rw [keys_put]
  split
  case isTrue => exact nodup
  case isFalse new =>
    rw [List.nodup_append]
    refine ⟨nodup, by simp, ?_⟩
    intro a ha b hb
    rw [List.mem_singleton.1 hb]
    exact fun h => new (h ▸ ha)

theorem contains_iff : contains es k ↔ k ∈ keys es := by
  induction es with
  | nil => simp [contains, get?, keys]
  | cons e rest ih =>
    by_cases h : e.1 = k
    · simp [contains, get?, keys, h]
    · simpa [contains, get?, keys, h, Ne.symm h] using ih

theorem get?_of_mem {e : α × β} (nodup : (keys es).Nodup) (h : e ∈ es) : get? es e.1 = some e.2 := by
  induction h with
  | head rest => simp [get?]
  | @tail e' rest h ih =>
    have nodup : e'.1 ∉ keys rest ∧ (keys rest).Nodup := List.nodup_cons.1 nodup
    have other : e'.1 ≠ e.1 := fun same => nodup.1 (same ▸ List.mem_map_of_mem h)
    rw [get?, if_neg other, ih nodup.2]

theorem eq_of_mem_of_nodup {a b : α × β} (nodup : (keys es).Nodup) (ha : a ∈ es) (hb : b ∈ es)
    (key : a.1 = b.1) : a = b := by
  have value := get?_of_mem nodup ha
  rw [key, get?_of_mem nodup hb] at value
  exact Prod.ext key (Option.some.inj value).symm

theorem eq_of_perm_of_keys_eq {fs : List (α × β)} (nodup : (keys es).Nodup) (perm : es.Perm fs)
    (order : keys es = keys fs) : es = fs := by
  apply eq_of_map_eq _ order
  intro e he f hf key
  exact eq_of_mem_of_nodup nodup he (perm.mem_iff.2 hf) key

theorem put_of_get? {x : β} (old : get? es k = some x) :
    ∃ front back, es = front ++ (k, x) :: back ∧ ∀ v, put es k v = front ++ (k, v) :: back := by
  induction es with
  | nil => cases old
  | cons e rest ih =>
    obtain ⟨k₀, x₀⟩ := e
    rw [get?] at old
    split at old
    case isTrue h =>
      cases old
      subst h
      exact ⟨[], rest, rfl, fun v => by rw [put, if_pos rfl, List.nil_append]⟩
    case isFalse h =>
      obtain ⟨front, back, rfl, written⟩ := ih old
      exact ⟨(k₀, x₀) :: front, back, rfl, fun v => by rw [put, if_neg h, written, List.cons_append]⟩

theorem put_comm {k' : α} {v v' : β} (ne : k ≠ k') (old : k ∈ keys es) :
    put (put es k v) k' v' = put (put es k' v') k v := by
  induction es with
  | nil => cases old
  | cons e rest ih =>
    obtain ⟨k₀, x₀⟩ := e
    by_cases h : k₀ = k
    · subst h
      simp [put, ne]
    · have old : k ∈ keys rest := (List.mem_cons.1 old).resolve_left (Ne.symm h)
      by_cases h' : k₀ = k'
      · subst h'
        simp [put, h]
      · simp [put, h, h', ih old]

variable {ks : List α} {ws : List (α × β)}

theorem keys_put_of_eraseDups (h : keys es = ks.eraseDups) (k : α) (v : β) :
    keys (put es k v) = (ks ++ [k]).eraseDups := by
  rw [keys_put, h, List.eraseDups_append]
  by_cases old : k ∈ ks
  · simp [List.removeAll, old]
  · simp [List.removeAll, old, List.eraseDups_cons]

theorem get?_put_of_lookup (h : ∀ k, get? es k = ws.reverse.lookup k) (k : α) (v : β) (k' : α) :
    get? (put es k v) k' = (ws ++ [(k, v)]).reverse.lookup k' := by
  rw [get?_put, h, List.reverse_append]
  by_cases same : k = k'
  · simp [same]
  · simp [List.lookup_cons, same, beq_eq_false_iff_ne.2 (Ne.symm same)]

/-- Writes one after another leave the keys in the order in which they were first written, each with
the value that was written to it last. -/
theorem foldl_put (es done ws : List (α × β)) (order : keys es = (keys done).eraseDups)
    (values : ∀ k, get? es k = done.reverse.lookup k) :
    let written := ws.foldl (fun acc e => put acc e.1 e.2) es
    keys written = (keys (done ++ ws)).eraseDups ∧
      ∀ k, get? written k = (done ++ ws).reverse.lookup k := by
  induction ws generalizing es done with
  | nil => simpa using ⟨order, values⟩
  | cons e ws ih =>
    have order' : keys (put es e.1 e.2) = (keys (done ++ [e])).eraseDups := by
      rw [keys, keys, List.map_append]
      exact keys_put_of_eraseDups order e.1 e.2
    have rest := ih _ _ order' (get?_put_of_lookup values e.1 e.2)
    rwa [List.append_assoc] at rest

theorem keys_ofList (ws : List (α × β)) : keys (ofList ws) = (keys ws).eraseDups :=
  (foldl_put [] [] ws rfl fun _ => rfl).1

theorem get?_ofList (ws : List (α × β)) (k : α) : get? (ofList ws) k = ws.reverse.lookup k :=
  (foldl_put [] [] ws rfl fun _ => rfl).2 k

theorem nodup_keys_ofList (es : List (α × β)) : (keys (ofList es)).Nodup := by
  suffices ∀ written : List (α × β), (keys written).Nodup →
      (keys (es.foldl (fun acc e => put acc e.1 e.2) written)).Nodup from this [] .nil
  induction es with
  | nil => exact fun written nodup => nodup
  | cons e es ih => exact fun written nodup => ih _ (nodup_keys_put e.1 e.2 nodup)

theorem ofList_of_nodup {es : List (α × β)} (nodup : (keys es).Nodup) : ofList es = es := by
  suffices ∀ written : List (α × β), (keys (written ++ es)).Nodup →
      es.foldl (fun acc e => put acc e.1 e.2) written = written ++ es from this [] nodup
  induction es with
  | nil => exact fun written _ => (List.append_nil written).symm
  | cons e es ih =>
    intro written nodup'
    rw [List.foldl_cons, put_of_not_mem _ (not_mem_keys_of_nodup nodup')]
    rw [List.append_cons] at nodup'
    rw [ih (List.nodup_cons.1 nodup).2 _ nodup', List.append_assoc, List.singleton_append]

theorem eraseDups_keys (nodup : (keys es).Nodup) : (keys es).eraseDups = keys es := by
  rw [← keys_ofList, ofList_of_nodup nodup]

theorem mem_of_lookup_reverse {v : β} (h : ws.reverse.lookup k = some v) : (k, v) ∈ ws := by
  obtain ⟨before, after, written, -⟩ := List.lookup_eq_some_iff.1 h
  rw [← List.mem_reverse, written]
  exact List.mem_append_right _ (.head _)

theorem mem_of_mem_ofList {e : α × β} (h : e ∈ ofList ws) : e ∈ ws := by
  have last := get?_of_mem (nodup_keys_ofList ws) h
  rw [get?_ofList] at last
  exact mem_of_lookup_reverse last

end DocMarks.Entries
