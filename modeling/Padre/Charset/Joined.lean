import Padre.Charset.Termination

/-! # Specs that are joined

A spec can be written in two pieces unless an item is cut: what is pending behind the first
piece decides whether the dash, or the end, that the second one begins with belongs to it.
The name of a class is not a piece, and the whole must not read as one.
-/
namespace Padre
open CString

/-- What is pending behind `s`. -/
def pendingBehind : Option (UInt8 × Bool) → List UInt8 → Option (UInt8 × Bool)
  | pending, [] => pending
  | none, c :: s => if c = dash then pendingBehind none s else pendingBehind (some (c,false)) s
  | some (l,false), c :: s => if c = dash then pendingBehind (some (l,true)) s else pendingBehind (some (c,false)) s
  | some (l,true), c :: s => if c = dash then pendingBehind (some (l,true)) s else pendingBehind none s

/-- The items that are complete behind `s`. -/
def itemsWithin : Option (UInt8 × Bool) → List UInt8 → List Item
  | _, [] => []
  | none, c :: s => if c = dash then .single dash :: itemsWithin none s else itemsWithin (some (c,false)) s
  | some (l,false), c :: s =>
    if c = dash then itemsWithin (some (l,true)) s else .single l :: itemsWithin (some (c,false)) s
  | some (l,true), c :: s =>
    if c = dash then itemsWithin (some (l,true)) s else .range l c :: itemsWithin none s

/-- With `pending` behind the first piece, the piece `t` begins an item of its own. -/
def Joins : Option (UInt8 × Bool) → List UInt8 → Prop
  | none, _ => True
  | some (_,false), t => t = [dash] ∨ t.head? ≠ some dash
  | some (_,true), t => t = []

theorem itemsFrom_append (pending : Option (UInt8 × Bool)) (s t : List UInt8) :
    itemsFrom pending (s ++ t) = itemsWithin pending s ++ itemsFrom (pendingBehind pending s) t := by
  induction s generalizing pending with
  | nil =>
    rcases pending with _ | ⟨l,_ | _⟩
    · rfl
    · rfl
    · rfl
  | cons c s ih =>
    rcases pending with _ | ⟨l,_ | _⟩
    all_goals
      simp only [List.cons_append, itemsFrom, itemsWithin, pendingBehind]
      split_ifs
      all_goals simp only [ih, List.cons_append]

/-- A pending range is closed by the next character or stays as it is at the end. -/
theorem itemsFrom_dash (l : UInt8) (s : List UInt8) :
    itemsFrom (some (l,true)) s = [.single l,.single dash] ∨
      ∃ hi rest, itemsFrom (some (l,true)) s = .range l hi :: rest := by
  induction s with
  | nil => exact Or.inl rfl
  | cons c s ih =>
    by_cases hc : c = dash
    · rw [itemsFrom, if_pos hc]
      exact ih
    · rw [itemsFrom, if_neg hc]
      exact Or.inr ⟨c,_,rfl⟩

/-- A pending range is not cut by a piece that is not empty. -/
theorem itemsFrom_dash_ne {l c : UInt8} {s : List UInt8} {rest : List Item} :
    itemsFrom (some (l,true)) s ≠ .single l :: .single dash :: (.single c :: rest) := by
  intro h
  rcases itemsFrom_dash l s with heq | ⟨hi,rest',heq⟩
  · rw [heq] at h
    simp at h
  · rw [heq] at h
    simp at h

theorem itemsFrom_joins_iff (pending : Option (UInt8 × Bool)) (t : List UInt8) :
    itemsFrom pending t = itemsFrom pending [] ++ itemsFrom none t ↔ Joins pending t := by
  rcases pending with _ | ⟨l,_ | _⟩
  · exact iff_of_true rfl trivial
  · cases t with
    | nil => exact iff_of_true rfl (Or.inr (by simp))
    | cons c t =>
      by_cases hc : c = dash
      · subst hc
        cases t with
        | nil => exact iff_of_true rfl (Or.inl rfl)
        | cons c t =>
          refine iff_of_false ?_ (by simp [Joins])
          by_cases hc : c = dash
          · simpa [itemsFrom, hc] using itemsFrom_dash_ne
          · simp [itemsFrom, hc]
      · exact iff_of_true (by simp [itemsFrom, hc]) (Or.inr (by simpa using hc))
  · cases t with
    | nil => exact iff_of_true rfl rfl
    | cons c t =>
      refine iff_of_false ?_ (by simp [Joins])
      by_cases hc : c = dash
      · simpa [itemsFrom, hc] using itemsFrom_dash_ne
      · simp [itemsFrom, hc]

/-- The items of two pieces are those of the whole exactly when no item is cut. -/
theorem items_append_iff (s t : List UInt8) :
    items (s ++ t) = items s ++ items t ↔ Joins (pendingBehind none s) t := by
  have hfirst : items s = itemsWithin none s ++ itemsFrom (pendingBehind none s) [] := by
    have happend := itemsFrom_append none s []
    rwa [List.append_nil] at happend
  rw [← itemsFrom_joins_iff, hfirst, items, itemsFrom_append, List.append_assoc, List.append_cancel_left_eq]
  rfl

theorem expansion_eq_flatMap (spec : List UInt8) : expansion spec = (items spec).flatMap Item.chars := rfl

theorem resolveClass_eq_self {spec : CStr} (h : ∀ c ∈ classes, spec.bytes ≠ c.1) : resolveClass spec = spec.bytes :=
  (resolveClass_resolved spec).resolve_right fun hclass => h _ hclass rfl

/-- When the calls on two pieces return and no item is cut, so does the call on the whole, and it
enumerates what the first call does and then what the second one does. None of the three is the
name of a class, which stands for its own spec only. -/
theorem enumerateCharset_joined {malloc : ℕ → Bool} {uninit : ℕ → UInt8} {s t st : CStr} {fuel fuel' : ℕ}
    {r r' : ℤ × CharsetOut} (hst : st.bytes = s.bytes ++ t.bytes)
    (hjoins : Joins (pendingBehind none s.bytes) t.bytes)
    (hnames : ∀ c ∈ classes, s.bytes ≠ c.1 ∧ t.bytes ≠ c.1 ∧ st.bytes ≠ c.1)
    (hs : enumerateCharset fuel malloc uninit (some s) freshOut = some r)
    (ht : enumerateCharset fuel' malloc uninit (some t) freshOut = some r') :
    r = verdict malloc (expansion s.bytes) freshOut ∧ r' = verdict malloc (expansion t.bytes) freshOut ∧
    ∃ n, ∀ fuel, n ≤ fuel → enumerateCharset fuel malloc uninit (some st) freshOut =
      some (verdict malloc (expansion s.bytes ++ expansion t.bytes) freshOut) := by
  obtain ⟨hspaces,hends⟩ := enumerateCharset_returned freshOut_res freshOut_rlen hs
  obtain ⟨hspaces',hends'⟩ := enumerateCharset_returned freshOut_res freshOut_rlen ht
  have hitems : items st.bytes = items s.bytes ++ items t.bytes := by
    rw [hst]
    exact (items_append_iff _ _).mpr hjoins
  have hresolved : resolveClass st = st.bytes := resolveClass_eq_self fun c hc => (hnames c hc).2.2
  have hexpansion : expansion (resolveClass st) = expansion s.bytes ++ expansion t.bytes := by
    rw [hresolved, expansion_eq_flatMap, hitems, List.flatMap_append]
    rfl
  have hspacesBoth : st.bytes.any isspace = false := by rw [hst, List.any_append, hspaces, hspaces', Bool.or_false]
  have hendsBoth : (items st.bytes).any Item.endless = false := by
    rw [hitems, List.any_append, hends, hends', Bool.or_false]
  refine ⟨?_,?_,(resolveClass st).length + 256,?_⟩
  · rw [(enumerateCharset_eq_some freshOut_res freshOut_rlen hs).1,
      resolveClass_eq_self fun c hc => (hnames c hc).1]
  · rw [(enumerateCharset_eq_some freshOut_res freshOut_rlen ht).1,
      resolveClass_eq_self fun c hc => (hnames c hc).2.1]
  · intro fuel hfuel
    rw [enumerateCharset_eq_verdict freshOut_res freshOut_rlen hspacesBoth hendsBoth (by omega), hexpansion]

theorem enumerateCharset_joined_range :
    (0,(⟨some (some ⟨3,literal "abc" ++ [0]⟩),some 3,0,[]⟩ : CharsetOut)) =
      verdict (fun _ => true) (expansion (CStr.upto (literal "a-c")).bytes) freshOut ∧
    (0,(⟨some (some ⟨1,literal "x" ++ [0]⟩),some 1,0,[]⟩ : CharsetOut)) =
      verdict (fun _ => true) (expansion (CStr.upto (literal "x")).bytes) freshOut ∧
    ∃ n, ∀ fuel, n ≤ fuel →
      enumerateCharset fuel (fun _ => true) (fun _ => 7) (some (CStr.upto (literal "a-cx"))) freshOut =
        some (verdict (fun _ => true) (expansion (CStr.upto (literal "a-c")).bytes ++
          expansion (CStr.upto (literal "x")).bytes) freshOut) :=
  enumerateCharset_joined (s := CStr.upto (literal "a-c")) (t := CStr.upto (literal "x")) (by decide) trivial
    (by decide) (show enumerateCharset 9 _ (fun _ => 7) _ _ = some _ by rfl)
    (show enumerateCharset 9 _ (fun _ => 7) _ _ = some _ by rfl)

end Padre
