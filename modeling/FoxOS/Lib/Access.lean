import FoxOS.Lib.ByteMem

/-!
# FoxOS.Lib.Access — loads and stores that can be refused

How a processor reaches a byte memory: an `Access` loads and stores single bytes, or refuses to (`none`).  A
load can change the memory as well, as a page walk does that marks the entries it uses.  `Sound ac I D`: in a
memory with `I` the access to an address in `D` is the plain one, keeps `I`, and changes nothing else in `D`.
Then so are the loads and stores of several bytes (`Sound.loads`, `Sound.stores`).
-/

namespace ByteMem

structure Access where
  load : ℕ → Mem → Option (UInt8 × Mem)
  store : ℕ → UInt8 → Mem → Option Mem

namespace Access

/-- The memory as it is. -/
def flat : Access := ⟨fun a m => some (m a, m), fun a b m => some (Function.update m a b)⟩

/-- Load `n` bytes from `a` on. -/
def loads (ac : Access) : ℕ → ℕ → Mem → Option (List UInt8 × Mem)
  | _, 0, m => some ([], m)
  | a, n + 1, m => (ac.load a m).bind fun p => (loads ac (a + 1) n p.2).bind fun q => some (p.1 :: q.1, q.2)

/-- Store the bytes of the list from `a` on. -/
def stores (ac : Access) : ℕ → List UInt8 → Mem → Option Mem
  | _, [], m => some m
  | a, b :: bs, m => (ac.store a b m).bind (stores ac (a + 1) bs)

structure Sound (ac : Access) (I : Mem → Prop) (D : ℕ → Prop) : Prop where
  load : ∀ {m a}, I m → D a → ∃ m', ac.load a m = some (m a, m') ∧ I m' ∧ ∀ x, D x → m' x = m x
  store : ∀ {m a} b, I m → D a → ∃ m', ac.store a b m = some m' ∧ I m' ∧ ∀ x,
    D x → m' x = Function.update m a b x

theorem flat_sound : flat.Sound (fun _ => True) (fun _ => True) :=
  ⟨fun _ _ => ⟨_, rfl, trivial, fun _ _ => rfl⟩, fun _ _ _ => ⟨_, rfl, trivial, fun _ _ => rfl⟩⟩

variable {ac : Access} {I : Mem → Prop} {D : ℕ → Prop} {m : Mem} {a n : ℕ}

/-- **Several loads** in a row. -/
theorem Sound.loads (h : ac.Sound I D) (hm : I m) (hD : ∀ i < n, D (a + i)) :
    ∃ m', ac.loads a n m = some ((List.range' a n).map m, m') ∧ I m' ∧ ∀ x, D x → m' x = m x := by
  induction n generalizing m a with
  | zero => exact ⟨m, rfl, hm, fun _ _ => rfl⟩
  | succ n ih =>
    obtain ⟨m₁, hload, hm₁, hsame⟩ := h.load hm (hD 0 (Nat.succ_pos n))
    have hrest : ∀ i < n, D (a + 1 + i) := fun i hi => by
      rw [Nat.add_right_comm]
      exact hD (i + 1) (Nat.succ_lt_succ hi)
    obtain ⟨m₂, hloads, hm₂, hsame₂⟩ := ih hm₁ hrest
    have hbytes : (List.range' (a + 1) n).map m₁ = (List.range' (a + 1) n).map m := by
      refine List.map_congr_left fun x hx => ?_
      obtain ⟨i, hi, rfl⟩ := List.mem_range'.mp hx
      rw [Nat.one_mul]
      exact hsame _ (hrest i hi)
    refine ⟨m₂, ?_, hm₂, fun x hx => (hsame₂ x hx).trans (hsame x hx)⟩
    rw [Access.loads, show ac.load a m = some (m a, m₁) from hload, Option.bind_some, hloads, hbytes]
    rfl

/-- **Several stores** in a row. -/
theorem Sound.stores (h : ac.Sound I D) (a : ℕ) (bs : List UInt8) (hm : I m) (hD : ∀ i < bs.length, D (a + i)) :
    ∃ m', ac.stores a bs m = some m' ∧ I m' ∧ ∀ x, D x → m' x = write m a bs x := by
  induction bs generalizing m a with
  | nil => exact ⟨m, rfl, hm, fun x _ => by rw [write_nil]⟩
  | cons b bs ih =>
    rw [List.length_cons] at hD
    obtain ⟨m₁, hstore, hm₁, hput⟩ := h.store b hm (hD 0 (Nat.succ_pos _))
    have hrest : ∀ i < bs.length, D (a + 1 + i) := fun i hi => by
      rw [Nat.add_right_comm]
      exact hD (i + 1) (Nat.succ_lt_succ hi)
    obtain ⟨m₂, hstores, hm₂, hput₂⟩ := ih (a + 1) hm₁ hrest
    refine ⟨m₂, ?_, hm₂, fun x hx => ?_⟩
    · rw [Access.stores, show ac.store a b m = some m₁ from hstore, Option.bind_some, hstores]
    · rw [hput₂ x hx, ← write_cons]
      unfold write
      rw [show m₁ x = Function.update m a b x from hput x hx]

end Access

end ByteMem
