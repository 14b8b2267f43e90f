import Mathlib

/-! Outcomes of the C++ functions, and the rules for their bounds checks and loops. -/
namespace MultiMeshJax

/-- How a call ends: with a value, with an `absl::Status` error returned to the caller,
or fatally (`LOG(FATAL)`, `CHECK`, `abort`, or behaviour that C++ leaves undefined). -/
inductive StatusOr (α : Type) where
  | ok (value : α)
  | error (message : String)
  | fatal (reason : String)
  deriving DecidableEq, Repr

namespace StatusOr

variable {α β γ : Type}

def bind : StatusOr α → (α → StatusOr β) → StatusOr β
  | ok a, f => f a
  | error m, _ => error m
  | fatal r, _ => fatal r

instance : Monad StatusOr where
  pure := ok
  bind := bind

def isOk : StatusOr α → Bool
  | ok _ => true
  | _ => false

def toOption : StatusOr α → Option α
  | ok a => some a
  | _ => none

theorem toOption_eq_some {x : StatusOr α} {a : α} : x.toOption = some a ↔ x = ok a := by
  cases x <;> simp [toOption]

theorem isOk_iff {x : StatusOr α} : x.isOk = true ↔ ∃ a, x = ok a := by
  cases x <;> simp [isOk]

@[simp] theorem pure_eq (a : α) : (pure a : StatusOr α) = ok a := rfl

@[simp] theorem ok_bind (a : α) (f : α → StatusOr β) : (ok a >>= f) = f a := rfl

@[simp] theorem error_bind (m : String) (f : α → StatusOr β) :
    ((error m : StatusOr α) >>= f) = error m := rfl

@[simp] theorem fatal_bind (r : String) (f : α → StatusOr β) :
    ((fatal r : StatusOr α) >>= f) = fatal r := rfl

/-- Peels one computation off a successful run. -/
theorem bind_eq_ok {x : StatusOr α} {f : α → StatusOr β} {b : β} :
    (x >>= f) = ok b ↔ ∃ a, x = ok a ∧ f a = ok b := by
  cases x <;> simp

@[simp] theorem map_ok (f : α → β) (a : α) : (f <$> (ok a : StatusOr α)) = ok (f a) := rfl

instance : LawfulMonad StatusOr :=
  LawfulMonad.mk' StatusOr (fun x => by cases x <;> rfl) (fun _ _ => rfl)
    (fun x _ _ => by cases x <;> rfl)

@[simp] theorem bind_ok (x : StatusOr α) : (x >>= fun a => ok a) = x := by cases x <;> rfl

/-- The `*` that takes the value out of a `StatusOr` aborts on an error. -/
def valueOrDie : StatusOr α → StatusOr α
  | error message => fatal message
  | x => x

/-- A value that the code dereferences without a check. -/
def deref (reason : String) : Option α → StatusOr α
  | some a => ok a
  | none => fatal reason

@[simp] theorem deref_some (r : String) (a : α) : deref r (some a) = ok a := rfl

theorem deref_eq_ok {r : String} {x : Option α} {a : α} : deref r x = ok a ↔ x = some a := by
  cases x <;> simp [deref]

/-- `operator[]` of a container: an access past the end is undefined. -/
def elementAt (xs : List α) (i : ℕ) : StatusOr α :=
  deref "index out of range" xs[i]?

theorem elementAt_eq_ok {xs : List α} {i : ℕ} {a : α} :
    elementAt xs i = ok a ↔ xs[i]? = some a := deref_eq_ok

theorem elementAt_of_lt {xs : List α} {i : ℕ} (h : i < xs.length) : elementAt xs i = ok xs[i] :=
  elementAt_eq_ok.mpr (List.getElem?_eq_getElem h)

theorem elementAt_of_le {xs : List α} {i : ℕ} (h : xs.length ≤ i) :
    elementAt xs i = fatal "index out of range" := by
  simp [elementAt, h, deref]

/-- `operator[]` at a signed index. -/
def elementAtInt (xs : List α) (i : ℤ) : StatusOr α :=
  if 0 ≤ i then elementAt xs i.toNat else fatal "index out of range"

theorem elementAtInt_natCast (xs : List α) (i : ℕ) :
    elementAtInt xs (i : ℤ) = elementAt xs i := by simp [elementAtInt]

theorem elementAtInt_eq_ok {xs : List α} {i : ℤ} {a : α} :
    elementAtInt xs i = ok a ↔ 0 ≤ i ∧ xs[i.toNat]? = some a := by
  unfold elementAtInt
  split
  · rename_i h
    simp [elementAt_eq_ok, h]
  · rename_i h
    simp [h]

/-- `xs[i] = a`: a write past the end is undefined. -/
def assignAt (xs : List α) (i : ℤ) (a : α) : StatusOr (List α) :=
  if 0 ≤ i ∧ i < xs.length then ok (xs.set i.toNat a) else fatal "index out of range"

theorem assignAt_natCast {xs : List α} {i : ℕ} (h : i < xs.length) (a : α) :
    assignAt xs (i : ℤ) a = ok (xs.set i a) := by
  simp [assignAt, h]

theorem assignAt_of_le {xs : List α} {i : ℕ} (h : xs.length ≤ i) (a : α) :
    assignAt xs (i : ℤ) a = fatal "index out of range" := by
  simp [assignAt, h]

/-- The `int` that an expression of this value has: signed overflow and a conversion
that changes the value are not results the code can rely on. -/
def int (x : ℤ) : StatusOr ℤ :=
  if -2 ^ 31 ≤ x ∧ x < 2 ^ 31 then ok x else fatal "value does not fit int"

theorem int_eq_ok {x y : ℤ} : int x = ok y ↔ (-2 ^ 31 ≤ x ∧ x < 2 ^ 31) ∧ x = y := by
  unfold int
  split <;> simp_all

theorem int_natCast_eq_ok {n : ℕ} {y : ℤ} : int (n : ℤ) = ok y ↔ n < 2 ^ 31 ∧ (n : ℤ) = y := by
  have hbounds : (-2 ^ 31 ≤ (n : ℤ) ∧ (n : ℤ) < 2 ^ 31) ↔ n < 2 ^ 31 := by omega
  rw [int_eq_ok, hbounds]

/-- What every element of a loop preserves, the loop preserves. -/
theorem foldlM_invariant {f : β → α → StatusOr β} (P : β → Prop) {xs : List α} {b b' : β}
    (h : xs.foldlM f b = ok b') (hb : P b)
    (hstep : ∀ x ∈ xs, ∀ c c', P c → f c x = ok c' → P c') : P b' := by
  induction xs generalizing b with
  | nil =>
    have he : b = b' := by simpa using h
    exact he ▸ hb
  | cons x xs ih =>
    rw [List.foldlM_cons, bind_eq_ok] at h
    obtain ⟨c, hc, hrest⟩ := h
    exact ih hrest (hstep x (by simp) b c hb hc)
      (fun y hy => hstep y (List.mem_cons_of_mem x hy))

/-- What holds of the elements that a loop has run over, step by step. -/
theorem foldlM_prefix {f : β → α → StatusOr β} (P : List α → β → Prop) {xs : List α} {b b' : β}
    (h : xs.foldlM f b = ok b') (hb : P [] b)
    (hstep : ∀ done x, done ++ [x] <+: xs → ∀ c c', P done c → f c x = ok c' → P (done ++ [x]) c') :
    P xs b' := by
  have hrest : ∀ (rest done : List α) (c : β), done ++ rest = xs → P done c →
      rest.foldlM f c = ok b' → P xs b' := by
    intro rest
    induction rest with
    | nil =>
      intro done c hsplit hc hrun
      obtain rfl : done = xs := by simpa using hsplit
      have he : c = b' := by simpa using hrun
      exact he ▸ hc
    | cons x rest ih =>
      intro done c hsplit hc hrun
      rw [List.foldlM_cons, bind_eq_ok] at hrun
      obtain ⟨d, hd, hrun⟩ := hrun
      have hsplit' : done ++ [x] ++ rest = xs := by simpa using hsplit
      exact ih (done ++ [x]) d hsplit' (hstep done x ⟨rest, hsplit'⟩ c d hc hd) hrun
  exact hrest xs [] b rfl hb h

/-- The same for a loop over the numbers below a bound. -/
theorem foldlM_range {f : β → ℕ → StatusOr β} (P : ℕ → β → Prop) {n : ℕ} {b b' : β}
    (h : (List.range n).foldlM f b = ok b') (hb : P 0 b)
    (hstep : ∀ k < n, ∀ c c', P k c → f c k = ok c' → P (k + 1) c') : P n b' := by
  induction n generalizing b' with
  | zero =>
    have he : b = b' := by simpa using h
    exact he ▸ hb
  | succ n ih =>
    rw [List.range_succ, List.foldlM_append, bind_eq_ok] at h
    obtain ⟨c, hc, hlast⟩ := h
    have hpc := ih hc fun k hk => hstep k (hk.trans (Nat.lt_succ_self n))
    exact hstep n (Nat.lt_succ_self n) c b' hpc (by simpa using hlast)

/-- The computation does not end fatally, and a value that it returns satisfies `P`. -/
def Safe (P : α → Prop) : StatusOr α → Prop
  | ok a => P a
  | error _ => True
  | fatal _ => False

theorem Safe.bind {P : α → Prop} {Q : β → Prop} {x : StatusOr α} {f : α → StatusOr β}
    (hx : Safe P x) (hf : ∀ a, P a → Safe Q (f a)) : Safe Q (x >>= f) := by
  cases x with
  | ok a => exact hf a hx
  | error m => exact hx
  | fatal r => exact hx

theorem Safe.mono {P Q : α → Prop} {x : StatusOr α} (hx : Safe P x) (h : ∀ a, P a → Q a) :
    Safe Q x := by
  cases x with
  | ok a => exact h a hx
  | error m => exact hx
  | fatal r => exact hx

/-- The rule for loops: a predicate of the elements that the loop has run over. -/
theorem safe_foldlM {f : β → α → StatusOr β} (P : List α → β → Prop) {xs : List α} {b : β}
    (hb : P [] b)
    (hstep : ∀ done x, done ++ [x] <+: xs → ∀ c, P done c → Safe (P (done ++ [x])) (f c x)) :
    Safe (P xs) (xs.foldlM f b) := by
  have hrest : ∀ (rest done : List α) (c : β), done ++ rest = xs → P done c →
      Safe (P xs) (rest.foldlM f c) := by
    intro rest
    induction rest with
    | nil =>
      intro done c hsplit hc
      obtain rfl : done = xs := by simpa using hsplit
      exact hc
    | cons x rest ih =>
      intro done c hsplit hc
      have hsplit' : done ++ [x] ++ rest = xs := by simpa using hsplit
      rw [List.foldlM_cons]
      apply (hstep done x ⟨rest, hsplit'⟩ c hc).bind
      intro d hd
      exact ih (done ++ [x]) d hsplit' hd
  exact hrest xs [] b rfl hb

/-- The computation does not end in an error that the caller sees, and a value that it returns
satisfies `P`. -/
def NoError (P : α → Prop) : StatusOr α → Prop
  | ok a => P a
  | error _ => False
  | fatal _ => True

theorem NoError.bind {P : α → Prop} {Q : β → Prop} {x : StatusOr α} {f : α → StatusOr β}
    (hx : NoError P x) (hf : ∀ a, P a → NoError Q (f a)) : NoError Q (x >>= f) := by
  cases x with
  | ok a => exact hf a hx
  | error m => exact hx
  | fatal r => exact hx

/-- The rule for loops that end in no error. -/
theorem noError_foldlM {f : β → α → StatusOr β} (P : List α → β → Prop) {xs : List α} {b : β}
    (hb : P [] b)
    (hstep : ∀ done x, done ++ [x] <+: xs → ∀ c, P done c → NoError (P (done ++ [x])) (f c x)) :
    NoError (P xs) (xs.foldlM f b) := by
  have hrest : ∀ (rest done : List α) (c : β), done ++ rest = xs → P done c →
      NoError (P xs) (rest.foldlM f c) := by
    intro rest
    induction rest with
    | nil =>
      intro done c hsplit hc
      obtain rfl : done = xs := by simpa using hsplit
      exact hc
    | cons x rest ih =>
      intro done c hsplit hc
      have hsplit' : done ++ [x] ++ rest = xs := by simpa using hsplit
      rw [List.foldlM_cons]
      apply (hstep done x ⟨rest, hsplit'⟩ c hc).bind
      intro d hd
      exact ih (done ++ [x]) d hsplit' hd
  exact hrest xs [] b rfl hb

/-- A loop ends with a value where every step does from what the steps before it lead to. -/
theorem exists_foldlM_eq_ok {f : β → α → StatusOr β} (P : List α → β → Prop) {l : List α} {b : β}
    (hb : P [] b)
    (hstep : ∀ done x, done ++ [x] <+: l → ∀ c, P done c →
      ∃ c', f c x = ok c' ∧ P (done ++ [x]) c') :
    ∃ b', l.foldlM f b = ok b' ∧ P l b' := by
  have hrest : ∀ (rest done : List α) (c : β), done ++ rest = l → P done c →
      ∃ b', rest.foldlM f c = ok b' ∧ P l b' := by
    intro rest
    induction rest with
    | nil =>
      intro done c hsplit hc
      obtain rfl : done = l := by simpa using hsplit
      exact ⟨c, rfl, hc⟩
    | cons x rest ih =>
      intro done c hsplit hc
      have hsplit' : done ++ [x] ++ rest = l := by simpa using hsplit
      obtain ⟨d, hd, hPd⟩ := hstep done x ⟨rest, hsplit'⟩ c hc
      obtain ⟨b', hb', hPb'⟩ := ih (done ++ [x]) d hsplit' hPd
      exact ⟨b', by rw [List.foldlM_cons, hd, ok_bind, hb'], hPb'⟩
  exact hrest l [] b rfl hb

/-- A loop ends with a value just when each step does from what the steps before it lead to. -/
theorem exists_foldlM_iff {f : β → α → StatusOr β} {xs : List α} {b : β} :
    (∃ b', xs.foldlM f b = ok b') ↔ ∀ done x rest, xs = done ++ x :: rest →
      ∀ c, done.foldlM f b = ok c → ∃ d, f c x = ok d := by
  constructor
  · rintro ⟨b', h⟩ done x rest rfl c hc
    rw [List.foldlM_append, hc, ok_bind] at h
    obtain ⟨d, hd, -⟩ := bind_eq_ok.mp h
    exact ⟨d, hd⟩
  · intro hstep
    obtain ⟨b', hb', -⟩ := exists_foldlM_eq_ok (fun done c => done.foldlM f b = ok c)
      (f := f) (l := xs) rfl (by
        rintro done x ⟨rest, hsplit⟩ c hc
        obtain ⟨d, hd⟩ := hstep done x rest (by rw [← hsplit, List.append_assoc]; rfl) c hc
        exact ⟨d, hd, by rw [List.foldlM_append, hc, ok_bind, List.foldlM_cons, hd]; rfl⟩)
    exact ⟨b', hb'⟩

/-- The element and the index at which a loop with an index is. -/
theorem of_prefix_zipIdx {xs : List α} {done : List (α × ℕ)} {x : α × ℕ}
    (h : done ++ [x] <+: xs.zipIdx) :
    x.2 = done.length ∧ xs[x.2]? = some x.1 ∧ done.map Prod.fst ++ [x.1] <+: xs := by
  have hinitial : done.map Prod.fst ++ [x.1] <+: xs := by simpa using h.map Prod.fst
  obtain ⟨rest, hrest⟩ := h
  have hget : xs.zipIdx[done.length]? = some x := by simp [← hrest]
  rw [List.getElem?_zipIdx, Option.map_eq_some_iff] at hget
  obtain ⟨a, ha, rfl⟩ := hget
  exact ⟨by simp, by simpa using ha, hinitial⟩

/-- What holds at the start and is kept at each position holds after a loop with an index. -/
theorem foldl_zipIdx {f : β → α × ℕ → β} (P : ℕ → β → Prop) {xs : List α} {b : β}
    (hstart : P 0 b) (hstep : ∀ k x b, xs[k]? = some x → P k b → P (k + 1) (f b (x, k))) :
    P xs.length (xs.zipIdx.foldl f b) := by
  have h : ∀ (rest done : List α) (b : β), done ++ rest = xs → P done.length b →
      P xs.length ((rest.zipIdx done.length).foldl f b) := by
    intro rest
    induction rest with
    | nil =>
      intro done b hsplit hb
      obtain rfl : done = xs := by simpa using hsplit
      exact hb
    | cons x rest ih =>
      intro done b hsplit hb
      have hx : xs[done.length]? = some x := by simp [← hsplit]
      have hnext := ih (done ++ [x]) (f b (x, done.length)) (by simpa using hsplit)
        (by simpa using hstep done.length x b hx hb)
      simpa using hnext
  exact h xs [] b rfl hstart

/-- A loop in which every element establishes what all the later ones keep. -/
theorem foldlM_establishes {f : β → α → StatusOr β} {P : β → Prop} {R : β → β → Prop}
    {Q : α → β → Prop} (hrefl : ∀ c, R c c) (htrans : ∀ c d e, R c d → R d e → R c e)
    (hkeep : ∀ x c c', R c c' → Q x c → Q x c') {xs : List α} {b b' : β}
    (h : xs.foldlM f b = ok b') (hb : P b)
    (hstep : ∀ x ∈ xs, ∀ c c', P c → f c x = ok c' → P c' ∧ R c c' ∧ Q x c') :
    P b' ∧ R b b' ∧ ∀ x ∈ xs, Q x b' := by
  induction xs generalizing b with
  | nil =>
    have he : b = b' := by simpa using h
    subst he
    exact ⟨hb, hrefl b, by simp⟩
  | cons x xs ih =>
    rw [List.foldlM_cons, bind_eq_ok] at h
    obtain ⟨c, hc, hrest⟩ := h
    obtain ⟨hPc, hRc, hQc⟩ := hstep x (by simp) b c hb hc
    obtain ⟨hP, hR, hQ⟩ := ih hrest hPc fun y hy => hstep y (List.mem_cons_of_mem x hy)
    refine ⟨hP, htrans _ _ _ hRc hR, ?_⟩
    intro y hy
    rcases List.mem_cons.mp hy with rfl | hy
    · exact hkeep _ _ _ hR hQc
    · exact hQ y hy

/-- A loop whose body appends what is related to a list of keys appends, over the whole
run, what is related to all the keys in the order of the loop. -/
theorem foldlM_forall₂ {R : γ → β → Prop} {f : List β → α → StatusOr (List β)}
    {g : α → List γ} {xs : List α} {b b' : List β} (h : xs.foldlM f b = ok b')
    (hstep : ∀ x ∈ xs, ∀ c c', f c x = ok c' → ∃ d, c' = c ++ d ∧ List.Forall₂ R (g x) d) :
    ∃ d, b' = b ++ d ∧ List.Forall₂ R (xs.flatMap g) d := by
  induction xs generalizing b with
  | nil => exact ⟨[], by simpa using (by simpa using h : b = b').symm, .nil⟩
  | cons x xs ih =>
    rw [List.foldlM_cons, bind_eq_ok] at h
    obtain ⟨c, hc, hrest⟩ := h
    obtain ⟨d, rfl, hd⟩ := hstep x (by simp) b c hc
    obtain ⟨e, rfl, he⟩ := ih hrest fun y hy => hstep y (List.mem_cons_of_mem x hy)
    exact ⟨d ++ e, by simp, List.rel_append hd he⟩

/-- `slots[indices[k]] = values[k]` for each `k` in turn, into fresh slots. -/
def scatter (indices : List ℤ) (values : List α) (size : ℕ) : StatusOr (List (Option α)) :=
  indices.zipIdx.foldlM (fun slots (index, k) => do
    let value ← elementAt values k
    assignAt slots index (some value)) (List.replicate size none)

private theorem scatter_loop {indices : List ℕ} {values : List α} {start : ℕ}
    {slots : List (Option α)} (hnodup : indices.Nodup) (hlt : ∀ i ∈ indices, i < slots.length)
    (hvalues : start + indices.length ≤ values.length) :
    ∃ result, ((indices.map Nat.cast).zipIdx start).foldlM (fun slots ((index : ℤ), k) => do
        let value ← elementAt values k
        assignAt slots index (some value)) slots = ok result ∧
      result.length = slots.length ∧
      (∀ k (hk : k < indices.length), result[indices[k]]? = some values[start + k]?) ∧
      ∀ i, i ∉ indices → result[i]? = slots[i]? := by
  induction indices generalizing start slots with
  | nil => exact ⟨slots, rfl, rfl, by simp, fun _ _ => rfl⟩
  | cons i indices ih =>
    obtain ⟨hi, hnodup⟩ := List.nodup_cons.mp hnodup
    simp only [List.length_cons] at hvalues
    have hget : values[start]? = some values[start] := List.getElem?_eq_getElem (by omega)
    have hstep : assignAt slots (i : ℤ) (some values[start]) =
        ok (slots.set i (some values[start])) := assignAt_natCast (hlt i (by simp)) _
    have hlt' : ∀ j ∈ indices, j < (slots.set i (some values[start])).length := by
      intro j hj
      simpa using hlt j (List.mem_cons_of_mem i hj)
    obtain ⟨result, hrun, hlen, hwritten, hkept⟩ := ih hnodup hlt'
      (by omega : start + 1 + indices.length ≤ values.length)
    refine ⟨result, ?_, by simpa using hlen, ?_, ?_⟩
    · simp only [List.map_cons, List.zipIdx_cons, List.foldlM_cons, elementAt, hget, deref_some,
        ok_bind, hstep]
      exact hrun
    · intro k hk
      cases k with
      | zero => simpa [hget, List.getElem?_set, hlt i (by simp)] using hkept i hi
      | succ k =>
        have hk' : k < indices.length := by simpa using hk
        simpa [Nat.add_assoc, Nat.add_comm 1 k] using hwritten k hk'
    · intro j hj
      rw [List.mem_cons, not_or] at hj
      rw [hkept j hj.2, List.getElem?_set_ne (Ne.symm hj.1)]

/-- Scattering along a permutation writes every value to its index. -/
theorem scatter_perm {indices : List ℕ} {values : List α}
    (hperm : indices.Perm (List.range indices.length)) (hlen : values.length = indices.length) :
    ∃ result, scatter (indices.map Nat.cast) values values.length = ok result ∧
      result.length = values.length ∧ ∀ k (hk : k < indices.length), result[indices[k]]? = some values[k]? := by
  have hlt : ∀ i ∈ indices, i < (List.replicate values.length (none : Option α)).length := by
    intro i hi
    simpa [hlen] using hperm.mem_iff.mp hi
  obtain ⟨result, hrun, hlength, hwritten, -⟩ := scatter_loop
    (hperm.nodup_iff.mpr List.nodup_range) hlt (by omega : 0 + indices.length ≤ values.length)
  exact ⟨result, hrun, by simpa using hlength, fun k hk => by simpa using hwritten k hk⟩

theorem mapM_eq_ok {f : α → StatusOr β} {xs : List α} {ys : List β} :
    xs.mapM f = ok ys ↔ List.Forall₂ (fun x y => f x = ok y) xs ys := by
  induction xs generalizing ys with
  | nil => cases ys <;> simp
  | cons x xs ih =>
    rw [List.mapM_cons, bind_eq_ok]
    constructor
    · rintro ⟨y, hy, h⟩
      obtain ⟨zs, hzs, h⟩ := bind_eq_ok.mp h
      cases h
      exact .cons hy (ih.mp hzs)
    · rintro (_ | ⟨hy, h⟩)
      exact ⟨_, hy, bind_eq_ok.mpr ⟨_, ih.mpr h, rfl⟩⟩

theorem exists_of_mem_mapM {f : α → StatusOr β} {xs : List α} {ys : List β}
    (h : xs.mapM f = ok ys) {y : β} (hy : y ∈ ys) : ∃ x ∈ xs, f x = ok y := by
  induction mapM_eq_ok.mp h with
  | nil => cases hy
  | @cons x y' xs ys hx hrest ih =>
    rcases List.mem_cons.mp hy with rfl | hy
    · exact ⟨x, by simp, hx⟩
    · obtain ⟨z, hz, hfz⟩ := ih (mapM_eq_ok.mpr hrest) hy
      exact ⟨z, List.mem_cons_of_mem _ hz, hfz⟩

theorem exists_forall₂ {R : α → β → Prop} {l : List α} (h : ∀ x ∈ l, ∃ y, R x y) :
    ∃ ys, List.Forall₂ R l ys := by
  induction l with
  | nil => exact ⟨[], .nil⟩
  | cons x l ih =>
    obtain ⟨y, hy⟩ := h x (by simp)
    obtain ⟨ys, hys⟩ := ih fun z hz => h z (List.mem_cons_of_mem x hz)
    exact ⟨y :: ys, .cons hy hys⟩

theorem exists_mapM_eq_ok (f : α → StatusOr β) {l : List α}
    (h : ∀ x ∈ l, ∃ y, f x = ok y) : ∃ ys, l.mapM f = ok ys := by
  obtain ⟨ys, hys⟩ := exists_forall₂ h
  exact ⟨ys, mapM_eq_ok.mpr hys⟩

theorem exists_mapM_iff {f : α → StatusOr β} {xs : List α} :
    (∃ ys, xs.mapM f = ok ys) ↔ ∀ x ∈ xs, ∃ y, f x = ok y := by
  constructor
  · rintro ⟨ys, h⟩ x hx
    induction mapM_eq_ok.mp h with
    | nil => cases hx
    | @cons x' y xs ys hy hrest ih =>
      rcases List.mem_cons.mp hx with rfl | hx
      · exact ⟨y, hy⟩
      · exact ih (mapM_eq_ok.mpr hrest) hx
  · exact exists_mapM_eq_ok f

theorem mapM_getElem? {f : α → StatusOr β} {xs : List α} {ys : List β} (h : xs.mapM f = ok ys)
    {i : ℕ} {x : α} (hx : xs[i]? = some x) : ∃ y, ys[i]? = some y ∧ f x = ok y := by
  have hrel := mapM_eq_ok.mp h
  obtain ⟨hlt, rfl⟩ := List.getElem?_eq_some_iff.mp hx
  have hlt' : i < ys.length := hrel.length_eq ▸ hlt
  exact ⟨ys[i], List.getElem?_eq_getElem hlt', hrel.get hlt hlt'⟩

end StatusOr

end MultiMeshJax
