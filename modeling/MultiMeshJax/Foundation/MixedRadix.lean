import Mathlib

/-! Mixed-radix systems with a weight on each digit, slowest digit first: reading numbers,
merging digits, and the uniqueness of the system in which no two digits can be merged. -/
namespace MultiMeshJax
namespace MixedRadix

/-- The radix and the weight of each digit. -/
abbrev System := List (ℕ × ℕ)

def size (s : System) : ℕ := (s.map Prod.fst).prod

@[simp] theorem size_nil : size [] = 1 := rfl

@[simp] theorem size_cons (p : ℕ × ℕ) (s : System) : size (p :: s) = p.1 * size s := by
  simp [size]

@[simp] theorem size_append (s t : System) : size (s ++ t) = size s * size t := by
  simp [size]

theorem size_pos {s : System} (h : ∀ p ∈ s, 0 < p.1) : 0 < size s := by
  induction s with
  | nil => exact Nat.one_pos
  | cons p s ih =>
    rw [size_cons]
    exact Nat.mul_pos (h p (by simp)) (ih fun q hq => h q (List.mem_cons_of_mem p hq))

/-- The weighted sum of the digits of a number. -/
def eval : System → ℕ → ℕ
  | [], _ => 0
  | p :: s, n => n / size s * p.2 + eval s (n % size s)

@[simp] theorem eval_zero (s : System) : eval s 0 = 0 := by
  induction s with
  | nil => rfl
  | cons p s ih => simp [eval, ih]

theorem eval_append {s t : System} {n : ℕ} (hn : n < size s * size t) :
    eval (s ++ t) n = eval s (n / size t) + eval t (n % size t) := by
  induction s generalizing n with
  | nil =>
    have hlt : n < size t := by simpa using hn
    rw [Nat.mod_eq_of_lt hlt, List.nil_append, eval, Nat.zero_add]
  | cons p s ih =>
    have hpos : 0 < size s * size t := by
      rw [size_cons, mul_assoc] at hn
      exact Nat.pos_of_mul_pos_left (Nat.zero_lt_of_lt hn)
    rw [List.cons_append, eval, ih (by simpa using Nat.mod_lt n hpos), eval, size_append,
      Nat.div_div_eq_div_mul, mul_comm (size t)]
    have hdiv : n % (size s * size t) / size t = n / size t % size s := by
      rw [mul_comm]
      exact Nat.mod_mul_right_div_self n (size t) (size s)
    have hmod : n % (size s * size t) % size t = n % size t := Nat.mod_mul_left_mod n _ _
    rw [hdiv, hmod, add_assoc]

/-- The digits of a run carry on from one to the next: it counts in steps of `w`. -/
def run (w : ℕ) : List ℕ → System
  | [] => []
  | r :: rs => (r, rs.prod * w) :: run w rs

@[simp] theorem map_fst_run (w : ℕ) (rs : List ℕ) : (run w rs).map Prod.fst = rs := by
  induction rs with
  | nil => rfl
  | cons r rs ih => simp [run, ih]

@[simp] theorem size_run (w : ℕ) (rs : List ℕ) : size (run w rs) = rs.prod := by
  simp [size]

theorem eval_run {w : ℕ} {rs : List ℕ} {n : ℕ} (hn : n < rs.prod) : eval (run w rs) n = n * w := by
  induction rs generalizing n with
  | nil =>
    have hzero : n = 0 := by simpa using hn
    simp [hzero, run]
  | cons r rs ih =>
    have hpos : 0 < rs.prod := by
      rw [List.prod_cons] at hn
      exact Nat.pos_of_mul_pos_left (Nat.zero_lt_of_lt hn)
    rw [run, eval, size_run, ih (Nat.mod_lt n hpos), ← mul_assoc, ← add_mul,
      Nat.div_add_mod']

/-- A system made of runs counts like the system with one digit for each run. -/
theorem eval_flatten_run {runs : List (ℕ × List ℕ)} {n : ℕ}
    (hn : n < size (runs.map fun x => (x.2.prod, x.1))) :
    eval (runs.map fun x => run x.1 x.2).flatten n =
      eval (runs.map fun x => (x.2.prod, x.1)) n := by
  induction runs generalizing n with
  | nil => rfl
  | cons x runs ih =>
    have hsize : size (runs.map fun x => run x.1 x.2).flatten =
        size (runs.map fun x => (x.2.prod, x.1)) := by
      clear ih hn
      induction runs with
      | nil => rfl
      | cons y runs ih =>
        rw [List.map_cons, List.flatten_cons, size_append, size_run, ih, List.map_cons, size_cons]
    rw [List.map_cons, size_cons] at hn
    have hpos : 0 < size (runs.map fun x => (x.2.prod, x.1)) :=
      Nat.pos_of_mul_pos_left (Nat.zero_lt_of_lt hn)
    rw [List.map_cons, List.flatten_cons, eval_append (by rwa [size_run, hsize]), hsize,
      eval_run (Nat.div_lt_of_lt_mul (by rwa [mul_comm] at hn)), ih (Nat.mod_lt n hpos)]
    rfl

/-- No digit is trivial, and no digit carries on from the next one. -/
structure Irreducible (s : System) : Prop where
  two_le : ∀ p ∈ s, 2 ≤ p.1
  weight_ne : ∀ (a b : System) (p q : ℕ × ℕ), s = a ++ p :: q :: b → p.2 ≠ q.1 * q.2

theorem Irreducible.of_append {s t : System} (h : Irreducible (s ++ t)) : Irreducible s where
  two_le p hp := h.two_le p (List.mem_append_left t hp)
  weight_ne a b p q hs := h.weight_ne a (b ++ t) p q (by simp [hs])

theorem eval_concat {s : System} {r v n : ℕ} (hn : n < size s * r) :
    eval (s ++ [(r, v)]) n = eval s (n / r) + n % r * v := by
  rw [eval_append (by simpa using hn)]
  simp [eval]

/-- The fastest digit of an irreducible system ends where the function first leaves the
line of its weight. -/
private theorem radix_le {s t : System} {r v r' : ℕ} (hs : Irreducible (s ++ [(r, v)]))
    (hsize : size s * r = size t * r')
    (heval : ∀ n < size s * r, eval (s ++ [(r, v)]) n = eval (t ++ [(r', v)]) n) : r' ≤ r := by
  by_contra hlt
  rw [not_le] at hlt
  have hr : 2 ≤ r := hs.two_le (r, v) (by simp)
  have hspos : 0 < size s := by
    apply size_pos
    intro p hp
    have := hs.two_le p (List.mem_append_left _ hp)
    omega
  have htpos : 0 < size t := by
    have hpos : 0 < size t * r' := hsize ▸ Nat.mul_pos hspos (by omega)
    exact Nat.pos_of_mul_pos_right hpos
  have hbound : r < size s * r := by
    rw [hsize]
    exact hlt.trans_le (Nat.le_mul_of_pos_left r' htpos)
  have heq := heval r hbound
  rw [eval_concat hbound, eval_concat (hsize ▸ hbound), Nat.div_self (by omega), Nat.mod_self,
    Nat.div_eq_of_lt hlt, Nat.mod_eq_of_lt hlt, eval_zero, zero_mul, add_zero, zero_add] at heq
  -- the digit before the last one carries weight `r * v`, so that it carries on from it
  rcases List.eq_nil_or_concat s with rfl | ⟨a, p, rfl⟩
  · simp at hbound
  · have hp : 2 ≤ p.1 := hs.two_le p (by simp)
    have hone : 1 < size a * p.1 := by
      have hlt' : r < size a * p.1 * r := by simpa using hbound
      by_contra hle
      have := Nat.mul_le_mul_right r (not_lt.mp hle)
      omega
    rw [List.concat_eq_append, ← Prod.eta p, eval_concat hone, Nat.div_eq_of_lt hp,
      Nat.mod_eq_of_lt hp, eval_zero, zero_add, one_mul] at heq
    exact hs.weight_ne a [] p (r, v) (by simp) heq

/-- An irreducible system is determined by the function that it evaluates to. -/
theorem Irreducible.eq_of_eval {s t : System} (hs : Irreducible s) (ht : Irreducible t)
    (hsize : size s = size t) (heval : ∀ n < size s, eval s n = eval t n) : s = t := by
  induction s using List.reverseRecOn generalizing t with
  | nil =>
    rcases List.eq_nil_or_concat t with rfl | ⟨b, q, rfl⟩
    · rfl
    · have hq : 2 ≤ q.1 := ht.two_le q (by simp)
      have hone : 1 = size b * q.1 := by simpa using hsize
      have := Nat.eq_one_of_mul_eq_one_left hone.symm
      omega
  | append_singleton a p ih =>
    have hp : 2 ≤ p.1 := hs.two_le p (by simp)
    rcases List.eq_nil_or_concat t with rfl | ⟨b, q, rfl⟩
    · have hone : size a * p.1 = 1 := by simpa using hsize
      have := Nat.eq_one_of_mul_eq_one_left hone
      omega
    · rw [List.concat_eq_append] at ht hsize heval ⊢
      have hq : 2 ≤ q.1 := ht.two_le q (by simp)
      obtain ⟨r, v⟩ := p
      obtain ⟨r', v'⟩ := q
      have hsize' : size a * r = size b * r' := by simpa using hsize
      have hapos : 0 < size a :=
        size_pos fun p hp => by have := hs.two_le p (by simp [hp]); omega
      have hone : 1 < size a * r := lt_of_lt_of_le hp (Nat.le_mul_of_pos_left r hapos)
      simp only [size_append, size_cons, size_nil, mul_one] at heval
      have hv : v = v' := by
        have h1 := heval 1 hone
        rw [eval_concat hone, eval_concat (hsize' ▸ hone), Nat.div_eq_of_lt hp,
          Nat.mod_eq_of_lt hp, Nat.div_eq_of_lt hq, Nat.mod_eq_of_lt hq] at h1
        simpa using h1
      subst hv
      have hr : r = r' := le_antisymm
        (radix_le ht hsize'.symm fun n hn => (heval n (hsize' ▸ hn)).symm)
        (radix_le hs hsize' heval)
      subst hr
      have hab : size a = size b := Nat.eq_of_mul_eq_mul_right (by omega) hsize'
      rw [ih hs.of_append ht.of_append hab]
      intro n hn
      have hlt : n * r < size a * r := Nat.mul_lt_mul_of_pos_right hn (by omega)
      have h := heval (n * r) hlt
      rwa [eval_concat hlt, eval_concat (hab ▸ hlt), Nat.mul_div_cancel n (by omega),
        Nat.mul_mod_left, zero_mul, add_zero, add_zero] at h

/-- With the radices given, the function determines the weights. -/
theorem eq_of_eval_of_radices {s t : System} (hs : ∀ p ∈ s, 2 ≤ p.1)
    (hradices : s.map Prod.fst = t.map Prod.fst)
    (heval : ∀ n < size s, eval s n = eval t n) : s = t := by
  induction s using List.reverseRecOn generalizing t with
  | nil => exact (List.map_eq_nil_iff.mp hradices.symm).symm
  | append_singleton a p ih =>
    have hp : 2 ≤ p.1 := hs p (by simp)
    rcases List.eq_nil_or_concat t with rfl | ⟨b, q, rfl⟩
    · simp at hradices
    · rw [List.concat_eq_append] at hradices heval ⊢
      obtain ⟨r, v⟩ := p
      obtain ⟨r', v'⟩ := q
      rw [List.map_append, List.map_append] at hradices
      obtain ⟨hab, hr⟩ := List.append_inj' hradices rfl
      obtain rfl : r = r' := by simpa using hr
      have hsize : size a = size b := congrArg List.prod hab
      have hapos : 0 < size a :=
        size_pos fun p hp => by have := hs p (by simp [hp]); omega
      simp only [size_append, size_cons, size_nil, mul_one] at heval
      have hone : 1 < size a * r := lt_of_lt_of_le hp (Nat.le_mul_of_pos_left r hapos)
      have hv : v = v' := by
        have h1 := heval 1 hone
        rw [eval_concat hone, eval_concat (hsize ▸ hone), Nat.div_eq_of_lt hp,
          Nat.mod_eq_of_lt hp] at h1
        simpa using h1
      rw [ih (fun p hp => hs p (by simp [hp])) hab, hv]
      intro n hn
      have hlt : n * r < size a * r := Nat.mul_lt_mul_of_pos_right hn (by omega)
      have h := heval (n * r) hlt
      rwa [eval_concat hlt, eval_concat (hsize ▸ hlt), Nat.mul_div_cancel n (by omega),
        Nat.mul_mod_left, zero_mul, zero_mul, add_zero, add_zero] at h

/-- A digit in front of a system, merged with the next one or dropped where possible. -/
def consMerged (p : ℕ × ℕ) : System → System
  | [] => if p.1 = 1 then [] else [p]
  | q :: s =>
    if p.1 = 1 then q :: s
    else if p.2 = q.1 * q.2 then (p.1 * q.1, q.2) :: s
    else p :: q :: s

def reduce (s : System) : System := s.foldr consMerged []

theorem size_consMerged (p : ℕ × ℕ) (s : System) : size (consMerged p s) = p.1 * size s := by
  unfold consMerged
  split
  · split
    · rename_i h
      simp [h]
    · simp
  · split
    · rename_i h
      simp [h]
    · split
      · rw [size_cons, size_cons, mul_assoc]
      · rfl

theorem eval_consMerged {p : ℕ × ℕ} {s : System} {n : ℕ} (hn : n < p.1 * size s) :
    eval (consMerged p s) n = eval (p :: s) n := by
  have hone : p.1 = 1 → eval s n = eval (p :: s) n := by
    intro h
    rw [h, one_mul] at hn
    rw [eval, Nat.div_eq_of_lt hn, Nat.mod_eq_of_lt hn, zero_mul, zero_add]
  unfold consMerged
  split
  · split
    · rename_i h
      exact hone h
    · rfl
  · rename_i q s
    split
    · rename_i h
      exact hone h
    · split
      · rename_i hw
        simp only [eval, size_cons, hw]
        rw [mul_comm q.1 (size s), Nat.mod_mul_right_div_self, Nat.mod_mul_right_mod,
          ← Nat.div_div_eq_div_mul, ← add_assoc, ← mul_assoc, ← add_mul, Nat.div_add_mod']
      · rfl

theorem irreducible_consMerged {p : ℕ × ℕ} {s : System} (hp : 0 < p.1) (hs : Irreducible s) :
    Irreducible (consMerged p s) := by
  unfold consMerged
  split
  · split
    · exact hs
    · refine ⟨fun q hq => ?_, fun a b q r h => ?_⟩
      · rw [List.mem_singleton.mp hq]
        omega
      · have hlen := congrArg List.length h
        simp only [List.length_append, List.length_cons, List.length_nil] at hlen
        omega
  · rename_i q s
    have htwo := hs.two_le q (by simp)
    split
    · exact hs
    · split
      · refine ⟨fun r hr => ?_, fun a b r t h => ?_⟩
        · rcases List.mem_cons.mp hr with rfl | hr
          · exact htwo.trans (Nat.le_mul_of_pos_left q.1 hp)
          · exact hs.two_le r (List.mem_cons_of_mem q hr)
        · cases a with
          | nil =>
            obtain ⟨rfl, rfl⟩ := List.cons.inj h
            exact hs.weight_ne [] b q t rfl
          | cons _ a =>
            obtain ⟨-, rfl⟩ := List.cons.inj h
            exact hs.weight_ne (q :: a) b r t rfl
      · rename_i hne hw
        refine ⟨fun r hr => ?_, fun a b r t h => ?_⟩
        · rcases List.mem_cons.mp hr with rfl | hr
          · omega
          · exact hs.two_le r hr
        · cases a with
          | nil =>
            obtain ⟨rfl, htail⟩ := List.cons.inj h
            rw [(List.cons.inj htail).1] at hw
            exact hw
          | cons _ a =>
            obtain ⟨-, h⟩ := List.cons.inj h
            exact hs.weight_ne a b r t h

theorem drop_consMerged (p : ℕ × ℕ) (s : System) (j : ℕ) :
    ∃ k, (consMerged p s).drop (j + 1) = s.drop k := by
  cases s with
  | nil =>
    refine ⟨0, ?_⟩
    simp only [consMerged]
    split <;> simp
  | cons q s =>
    simp only [consMerged]
    split
    · exact ⟨j + 1, rfl⟩
    · split
      · exact ⟨j + 1, rfl⟩
      · exact ⟨j, rfl⟩

theorem irreducible_nil : Irreducible [] := ⟨by simp, by simp⟩

/-- Reducing a system keeps its size and its function, and where digits end in the reduced
system, digits end in the given one. -/
theorem reduce_spec {s : System} (h : ∀ p ∈ s, 0 < p.1) :
    Irreducible (reduce s) ∧ size (reduce s) = size s ∧
      (∀ n < size s, eval (reduce s) n = eval s n) ∧
      ∀ j, ∃ i, size (s.drop i) = size ((reduce s).drop j) := by
  induction s with
  | nil => exact ⟨irreducible_nil, rfl, fun _ _ => rfl, fun j => ⟨0, by simp [reduce]⟩⟩
  | cons p s ih =>
    obtain ⟨hirr, hsize, heval, hdrop⟩ := ih fun q hq => h q (List.mem_cons_of_mem p hq)
    have hp := h p (by simp)
    have hreduce : reduce (p :: s) = consMerged p (reduce s) := rfl
    have hwhole : size (reduce (p :: s)) = size (p :: s) := by
      rw [hreduce, size_consMerged, hsize, size_cons]
    refine ⟨irreducible_consMerged hp hirr, hwhole, fun n hn => ?_, fun j => ?_⟩
    · have hspos : 0 < size s := size_pos fun q hq => h q (List.mem_cons_of_mem p hq)
      rw [hreduce, eval_consMerged (by simpa [hsize] using hn), eval, eval, hsize,
        heval _ (Nat.mod_lt n hspos)]
    · cases j with
      | zero => exact ⟨0, by simpa using hwhole.symm⟩
      | succ j =>
        obtain ⟨k, hk⟩ := drop_consMerged p (reduce s) j
        obtain ⟨i, hi⟩ := hdrop k
        exact ⟨i + 1, by rw [hreduce, hk, ← hi, List.drop_succ_cons]⟩

/-- Of two systems with the same function, an irreducible one ends its digits only where
the other ends some. -/
theorem Irreducible.drop_size {s t : System} (ht : Irreducible t) (hs : ∀ p ∈ s, 0 < p.1)
    (hsize : size s = size t) (heval : ∀ n < size s, eval s n = eval t n) (j : ℕ) :
    ∃ i, size (s.drop i) = size (t.drop j) := by
  obtain ⟨hirr, hsize', heval', hdrop⟩ := reduce_spec hs
  have heq : reduce s = t := by
    apply hirr.eq_of_eval ht (hsize'.trans hsize)
    intro n hn
    rw [hsize'] at hn
    exact (heval' n hn).trans (heval n hn)
  rw [← heq]
  exact hdrop j

/-- The products of the last radices tell the positions apart. -/
theorem drop_prod_injective {rs : List ℕ} (h : ∀ r ∈ rs, 2 ≤ r) {i j : ℕ} (hi : i ≤ rs.length)
    (hj : j ≤ rs.length) (heq : (rs.drop i).prod = (rs.drop j).prod) : i = j := by
  have hmono : ∀ {i j : ℕ}, j ≤ rs.length → i < j → (rs.drop j).prod < (rs.drop i).prod := by
    intro i j hj hij
    have hsplit : (rs.drop i).prod = ((rs.drop i).take (j - i)).prod * (rs.drop j).prod := by
      rw [← List.prod_take_mul_prod_drop (rs.drop i) (j - i), List.drop_drop,
        Nat.add_sub_cancel' hij.le]
    have hpos : 0 < (rs.drop j).prod := by
      apply List.prod_pos
      intro r hr
      have := h r (List.mem_of_mem_drop hr)
      omega
    obtain ⟨r, rest, hrest⟩ : ∃ r rest, (rs.drop i).take (j - i) = r :: rest := by
      apply List.exists_cons_of_length_pos
      rw [List.length_take, List.length_drop]
      omega
    have hmem : ∀ x ∈ r :: rest, 2 ≤ x := by
      intro x hx
      exact h x (List.mem_of_mem_drop (List.mem_of_mem_take (hrest ▸ hx)))
    have hrestPos : 0 < rest.prod := by
      apply List.prod_pos
      intro x hx
      have := hmem x (List.mem_cons_of_mem r hx)
      omega
    have htwo : 2 ≤ (r :: rest).prod := by
      rw [List.prod_cons]
      exact (hmem r (by simp)).trans (Nat.le_mul_of_pos_right r hrestPos)
    rw [hsplit, hrest]
    nlinarith
  rcases Nat.lt_trichotomy i j with hlt | hij | hgt
  · exact absurd heq (hmono hj hlt).ne'
  · exact hij
  · exact absurd heq (hmono hi hgt).ne

/-- The digits of a number. -/
def digits : List ℕ → ℕ → List ℕ
  | [], _ => []
  | _ :: rs, n => n / rs.prod :: digits rs (n % rs.prod)

@[simp] theorem length_digits (rs : List ℕ) (n : ℕ) : (digits rs n).length = rs.length := by
  induction rs generalizing n with
  | nil => rfl
  | cons r rs ih => simp [digits, ih]

theorem eval_eq_digits (s : System) (n : ℕ) :
    eval s n = (((digits (s.map Prod.fst) n).zip s).map fun x => x.1 * x.2.2).sum := by
  induction s generalizing n with
  | nil => rfl
  | cons p s ih =>
    rw [eval, ih, List.map_cons, digits]
    rfl

/-- The number with the given digits. -/
def rowMajor : List ℕ → List ℕ → ℕ
  | _ :: rs, d :: ds => d * rs.prod + rowMajor rs ds
  | _, _ => 0

theorem rowMajor_lt {rs ds : List ℕ} (h : List.Forall₂ (· < ·) ds rs) :
    rowMajor rs ds < rs.prod := by
  induction h with
  | nil => simp [rowMajor]
  | @cons d r ds rs hd _ ih =>
    have hle : (d + 1) * rs.prod ≤ r * rs.prod := Nat.mul_le_mul_right _ hd
    rw [add_mul, one_mul] at hle
    rw [rowMajor, List.prod_cons]
    omega

theorem exists_rowMajor {rs : List ℕ} {n : ℕ} (hn : n < rs.prod) :
    ∃ ds, List.Forall₂ (· < ·) ds rs ∧ rowMajor rs ds = n := by
  induction rs generalizing n with
  | nil => exact ⟨[], .nil, (by simpa [rowMajor] using hn : n = 0).symm⟩
  | cons r rs ih =>
    rw [List.prod_cons] at hn
    have hpos : 0 < rs.prod := Nat.pos_of_mul_pos_left (Nat.zero_lt_of_lt hn)
    obtain ⟨ds, hds, hval⟩ := ih (Nat.mod_lt n hpos)
    refine ⟨n / rs.prod :: ds, .cons (Nat.div_lt_of_lt_mul (by rwa [mul_comm] at hn)) hds, ?_⟩
    rw [rowMajor, hval, Nat.div_add_mod']

theorem digits_rowMajor {rs ds : List ℕ} (h : List.Forall₂ (· < ·) ds rs) :
    digits rs (rowMajor rs ds) = ds := by
  induction h with
  | nil => rfl
  | @cons d r ds rs hd hds ih =>
    have hlt := rowMajor_lt hds
    rw [rowMajor, digits, mul_comm d, Nat.mul_add_div (by omega), Nat.div_eq_of_lt hlt,
      Nat.add_zero, Nat.mul_add_mod, Nat.mod_eq_of_lt hlt, ih]

/-- The digit in front of the last `k` ones has weight the product of their radices. -/
theorem rowMajor_eq_sum {rs ds : List ℕ} (h : ds.length = rs.length) :
    rowMajor rs ds =
      ((List.range rs.length).map fun a => ds.getD a 0 * (rs.drop (a + 1)).prod).sum := by
  induction rs generalizing ds with
  | nil => simp [rowMajor]
  | cons r rs ih =>
    cases ds with
    | nil => simp at h
    | cons d ds =>
      rw [rowMajor, ih (by simpa using h), List.length_cons, List.range_succ_eq_map,
        List.map_cons, List.sum_cons, List.map_map]
      simp [Function.comp_def]

end MixedRadix
end MultiMeshJax
