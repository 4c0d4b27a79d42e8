import FoxOS.Lib.Mealy

/-!
# FoxOS.Lib.Polled — a register that is read without a handshake

A producer puts values into a queue, a register takes them from there one at a time, and a consumer reads the
register whenever it likes: a register without a new value shows the old one again.  A `Read` is a value with
the mark whether it was new; of a list of reads, `fresh` are the new values, `seen` the first value and the new
ones behind it. `Follows d c rs`: after the reads `rs`, a value in the register that is not new is the last new
one, or `d`, which stood there at the start.  A consumer that settles (`Mealy.Settles`) is where the values it
has `seen` leave it (`Follows.read`), so it neither loses nor doubles a value.
-/

namespace Polled

open Mealy

variable {α σ ω : Type*}

/-- The register, whether its value is new, and the values behind it. -/
structure Latch (α : Type*) where
  data : α
  full : Bool
  queue : List α

/-- What a read gets: a value, and whether it was new. -/
structure Read (α : Type*) where
  value : α
  new : Bool
  deriving DecidableEq

namespace Latch

/-- What a read gets now. -/
def look (c : Latch α) : Read α := ⟨c.data, c.full⟩

/-- The values that no read has fetched yet. -/
def unread (c : Latch α) : List α := (if c.full then [c.data] else []) ++ c.queue

/-- A read leaves the value in the register, but it is no longer new. -/
def take (c : Latch α) : Latch α := { c with full := false }

/-- The register takes the next value when the one it holds has been read. -/
def latch (c : Latch α) : Latch α :=
  if c.full then c
  else
    match c.queue with
    | [] => c
    | b :: queue => ⟨b, true, queue⟩

def send (c : Latch α) (b : α) : Latch α := { c with queue := c.queue ++ [b] }

variable {c : Latch α} {b : α}

@[simp] theorem unread_send : (c.send b).unread = c.unread ++ [b] := (List.append_assoc _ _ _).symm

@[simp] theorem unread_latch : c.latch.unread = c.unread := by
  unfold latch
  by_cases hf : c.full = true
  · rw [if_pos hf]
  · rw [if_neg hf]
    cases hq : c.queue with
    | nil => rfl
    | cons b queue => simp [unread, hf, hq]

theorem unread_take_of_full (h : c.full = true) : c.unread = c.data :: c.take.unread := by
  simp [unread, take, h]

/-- The register takes the first unread value, if it does not hold it already. -/
theorem latch_of_unread {queue : List α} (h : c.unread = b :: queue) : c.latch = ⟨b, true, queue⟩ := by
  obtain ⟨data, full, q⟩ := c
  cases full with
  | true => cases h; rfl
  | false => cases h; rfl

theorem take_of_empty (h : c.full = false) : c.take = c := by
  obtain ⟨data, full, queue⟩ := c
  cases h
  rfl

/-- A register that holds an old value after taking the next one held it before. -/
theorem latch_of_empty (h : c.latch.full = false) : c.latch = c := by
  unfold latch at h ⊢
  by_cases hf : c.full = true
  · rw [if_pos hf]
  · rw [if_neg hf] at h ⊢
    cases hq : c.queue with
    | nil => rfl
    | cons b queue => rw [hq] at h; cases h

end Latch

/-! ### What the consumer has seen -/

/-- The new values among the reads. -/
def fresh (rs : List (Read α)) : List α := (rs.filter (·.new)).map (·.value)

/-- The first value, whatever it is, and the new ones behind it. -/
def seen : List (Read α) → List α
  | [] => []
  | r :: rs => r.value :: fresh rs

variable {d : α} {c : Latch α} {rs : List (Read α)} {r : Read α}

theorem fresh_append (rs rs' : List (Read α)) : fresh (rs ++ rs') = fresh rs ++ fresh rs' := by
  rw [fresh, List.filter_append, List.map_append]
  rfl

theorem fresh_singleton_new (h : r.new = true) : fresh [r] = [r.value] := by
  rw [fresh, List.filter_cons_of_pos h]
  rfl

theorem fresh_singleton_old (h : r.new = false) : fresh [r] = [] := by
  rw [fresh, List.filter_cons_of_neg (by rw [h]; exact Bool.false_ne_true)]
  rfl

theorem seen_append (hrs : rs ≠ []) (r : Read α) : seen (rs ++ [r]) = seen rs ++ fresh [r] := by
  obtain ⟨r₀, rest, rfl⟩ := List.exists_cons_of_ne_nil hrs
  rw [List.cons_append, seen, seen, fresh_append, List.cons_append]

/-- An old value in the register is the last new one, or `d`; so is an old value that was read first. -/
structure Follows (d : α) (c : Latch α) (rs : List (Read α)) : Prop where
  old : c.full = false → c.data = (fresh rs).getLastD d
  first : ∀ r, rs.head? = some r → r.new = false → r.value = d

/-- At the start nothing is read, and the register shows `d` unless its value is new. -/
theorem follows_nil (h : c.full = false → c.data = d) : Follows d c [] := ⟨h, fun _ hr => by cases hr⟩

theorem Follows.send (h : Follows d c rs) (b : α) : Follows d (c.send b) rs := ⟨h.old, h.first⟩

theorem Follows.latch (h : Follows d c rs) : Follows d c.latch rs := by
  refine ⟨fun hf => ?_, h.first⟩
  have hsame := Latch.latch_of_empty hf
  rw [hsame] at hf ⊢
  exact h.old hf

theorem Follows.take (h : Follows d c rs) : Follows d c.take (rs ++ [c.look]) := by
  refine ⟨fun _ => ?_, fun r hr hnew => ?_⟩
  · rw [fresh_append]
    cases hf : c.full with
    | true =>
      rw [fresh_singleton_new (show c.look.new = true from hf), List.getLastD_concat]
      rfl
    | false =>
      rw [fresh_singleton_old (show c.look.new = false from hf), List.append_nil]
      exact h.old hf
  · cases rs with
    | nil =>
      obtain rfl : c.look = r := Option.some.inj hr
      exact h.old hnew
    | cons r₀ rs => exact h.first r hr hnew

/-- The new values of a read and the unread ones together stay the same. -/
theorem fresh_take (rs : List (Read α)) (c : Latch α) :
    fresh (rs ++ [c.look]) ++ c.take.unread = fresh rs ++ c.unread := by
  rw [fresh_append, List.append_assoc]
  cases hf : c.full with
  | true =>
    rw [fresh_singleton_new (show c.look.new = true from hf), Latch.unread_take_of_full hf]
    rfl
  | false =>
    rw [fresh_singleton_old (show c.look.new = false from hf), Latch.take_of_empty hf]
    rfl

/-- The consumer has seen the new values, possibly behind the one that stood in the register. -/
theorem seen_eq (h : ∀ r, rs.head? = some r → r.new = false → r.value = d) :
    seen rs = fresh rs ∨ seen rs = d :: fresh rs := by
  cases rs with
  | nil => exact Or.inl rfl
  | cons r rs =>
    rw [seen, show r :: rs = [r] ++ rs from rfl, fresh_append]
    cases hnew : r.new with
    | true =>
      rw [fresh_singleton_new hnew]
      exact Or.inl rfl
    | false =>
      rw [fresh_singleton_old hnew, h r rfl hnew]
      exact Or.inr rfl

/-- An old value in the register is the last one that was seen. -/
theorem Follows.seen_last (h : Follows d c rs) (hrs : rs ≠ []) (hf : c.full = false) :
    ∃ init, seen rs = init ++ [c.data] := by
  rw [h.old hf]
  rcases List.eq_nil_or_concat (fresh rs) with hnil | ⟨init, last, hlast⟩
  · -- nothing new so far: the first read showed `d`
    obtain ⟨r, rest, rfl⟩ := List.exists_cons_of_ne_nil hrs
    rcases seen_eq h.first with hs | hs
    · rw [hnil, seen] at hs
      cases hs
    · exact ⟨[], by rw [hs, hnil]; rfl⟩
  · rw [List.concat_eq_append] at hlast
    rw [hlast, List.getLastD_concat]
    rcases seen_eq h.first with hs | hs
    · exact ⟨init, by rw [hs, hlast]⟩
    · exact ⟨d :: init, by rw [hs, hlast]; rfl⟩

/-- A settled machine does nothing more on the last value it has seen. -/
theorem settled_last {step : σ → α → σ × ω} {z : ω} (hz : Settles step z) (s : σ) (is : List α) (i : α) :
    step (after step s (is ++ [i])) i = (after step s (is ++ [i]), z) := by
  rw [after_append]
  exact hz _ i

/-- **One read**: the value is seen now; or it is old, and a settled consumer ignores it. -/
theorem Follows.read {step : σ → α → σ × ω} {z : ω} (hz : Settles step z) (s : σ) (h : Follows d c rs) :
    seen (rs ++ [c.look]) = seen rs ++ [c.data] ∨
      seen (rs ++ [c.look]) = seen rs ∧ step (after step s (seen rs)) c.data = (after step s (seen rs), z) := by
  by_cases hrs : rs = []
  · rw [hrs]
    exact Or.inl rfl
  rw [seen_append hrs]
  cases hf : c.full with
  | true => exact Or.inl (by rw [fresh_singleton_new (show c.look.new = true from hf)]; rfl)
  | false =>
    rw [fresh_singleton_old (show c.look.new = false from hf), List.append_nil]
    obtain ⟨init, hlast⟩ := h.seen_last hrs hf
    rw [hlast]
    exact Or.inr ⟨rfl, settled_last hz s init c.data⟩

end Polled
