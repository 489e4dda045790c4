-- SUMMARY: Decoders that read a buffer from the front: bounds faults, exceptions, self-delimiting encodings, cut inputs.
import Mathlib.Data.List.Infix

/-!
# Decoders

A decoder consumes the bytes not yet read and either returns a value, or throws, or
reads past the end of its buffer. The last is a result of its own (`outOfBounds`): a
handler that catches exceptions does not catch it.

`Reads d bs a` says that `bs` is an encoding of `a` that delimits itself. `Local d` says
that what `d` does depends only on the bytes it consumes. Together they give `cut`: on a
self-delimiting encoding that lost a part of its end, a local decoder reads past the end.
-/

inductive Fault (ε : Type) where
  | outOfBounds
  | thrown (e : ε)
  deriving DecidableEq, Repr

/-- The state is the rest of the buffer, from the read offset on. -/
abbrev Decoder (ε α : Type) := StateT (List UInt8) (Except (Fault ε)) α

namespace Decoder

variable {ε α β : Type}

/-- The next `n` bytes. -/
def take (n : Nat) : Decoder ε (List UInt8) := fun input =>
  if input.length < n then .error .outOfBounds else .ok (input.take n, input.drop n)

def throw (e : ε) : Decoder ε α := fun _ => .error (.thrown e)

/-- `n` values, one after the other. -/
def repeatN (d : Decoder ε α) : Nat → Decoder ε (List α)
  | 0 => pure []
  | n + 1 => do
    let a ← d
    let as ← repeatN d n
    return a :: as

/-! ## Running a decoder -/

theorem take_run (n : Nat) (input : List UInt8) :
    (take n : Decoder ε _).run input =
      if input.length < n then .error .outOfBounds else .ok (input.take n, input.drop n) := rfl

theorem take_ok {n : Nat} {input bs rest : List UInt8} :
    (take n : Decoder ε _).run input = .ok (bs, rest) ↔ bs.length = n ∧ input = bs ++ rest := by
  rw [take_run]
  constructor
  · intro h
    split at h
    · cases h
    · rename_i hlen
      cases h
      simp only [List.length_take, List.take_append_drop, and_true]
      omega
  · rintro ⟨rfl, rfl⟩
    simp

theorem take_not_thrown {n : Nat} {input : List UInt8} {e : ε} :
    (take n : Decoder ε _).run input ≠ .error (.thrown e) := by
  rw [take_run]
  intro h
  split at h <;> cases h

theorem pure_ok {a b : α} {input rest : List UInt8} :
    (pure a : Decoder ε α).run input = .ok (b, rest) ↔ a = b ∧ input = rest := by
  constructor
  · intro h
    cases h
    exact ⟨rfl, rfl⟩
  · rintro ⟨rfl, rfl⟩
    rfl

theorem bind_of_ok {d : Decoder ε α} {f : α → Decoder ε β} {input rest : List UInt8} {a : α}
    (h : d.run input = .ok (a, rest)) : (d >>= f).run input = (f a).run rest := by
  rw [StateT.run_bind, h]
  rfl

theorem bind_of_error {d : Decoder ε α} {f : α → Decoder ε β} {input : List UInt8} {e : Fault ε}
    (h : d.run input = .error e) : (d >>= f).run input = .error e := by
  rw [StateT.run_bind, h]
  rfl

theorem bind_ok {d : Decoder ε α} {f : α → Decoder ε β} {input rest : List UInt8} {b : β} :
    (d >>= f).run input = .ok (b, rest) ↔
      ∃ a mid, d.run input = .ok (a, mid) ∧ (f a).run mid = .ok (b, rest) := by
  constructor
  · intro h
    cases hd : d.run input with
    | error e =>
      rw [bind_of_error hd] at h
      cases h
    | ok r =>
      rw [bind_of_ok hd] at h
      exact ⟨r.1, r.2, rfl, h⟩
  · rintro ⟨a, mid, hd, hf⟩
    rw [bind_of_ok hd, hf]

theorem bind_error {d : Decoder ε α} {f : α → Decoder ε β} {input : List UInt8} {e : Fault ε} :
    (d >>= f).run input = .error e ↔
      d.run input = .error e ∨ ∃ a mid, d.run input = .ok (a, mid) ∧ (f a).run mid = .error e := by
  constructor
  · intro h
    cases hd : d.run input with
    | error e' =>
      rw [bind_of_error hd] at h
      injection h with h
      exact .inl (by rw [h])
    | ok r =>
      rw [bind_of_ok hd] at h
      exact .inr ⟨r.1, r.2, rfl, h⟩
  · rintro (hd | ⟨a, mid, hd, hf⟩)
    · exact bind_of_error hd
    · rw [bind_of_ok hd, hf]

/-! ## Self-delimiting encodings -/

/-- In front of any further bytes, `d` consumes exactly `bs` and returns `a`. -/
def Reads (d : Decoder ε α) (bs : List UInt8) (a : α) : Prop :=
  ∀ rest, d.run (bs ++ rest) = .ok (a, rest)

theorem Reads.run {d : Decoder ε α} {bs : List UInt8} {a : α} (h : Reads d bs a) :
    d.run bs = .ok (a, []) := by
  have := h []
  rwa [List.append_nil] at this

theorem reads_pure (a : α) : Reads (pure a : Decoder ε α) [] a := fun _ => rfl

theorem reads_take {bs : List UInt8} {n : Nat} (h : bs.length = n) :
    Reads (take n : Decoder ε _) bs bs :=
  fun _ => take_ok.mpr ⟨h, rfl⟩

theorem Reads.bind {d : Decoder ε α} {f : α → Decoder ε β} {bs cs : List UInt8} {a : α} {b : β}
    (hd : Reads d bs a) (hf : Reads (f a) cs b) : Reads (d >>= f) (bs ++ cs) b := by
  intro rest
  rw [List.append_assoc, bind_of_ok (hd _), hf]

theorem Reads.map {d : Decoder ε α} {g : α → β} {bs : List UInt8} {a : α}
    (hd : Reads d bs a) : Reads (d >>= fun a => pure (g a)) bs (g a) := by
  have h := hd.bind (f := fun a => pure (g a)) (reads_pure (g a))
  rwa [List.append_nil] at h

theorem reads_repeatN {d : Decoder ε α} {enc : α → List UInt8} {as : List α}
    (h : ∀ a ∈ as, Reads d (enc a) a) : Reads (repeatN d as.length) (as.flatMap enc) as := by
  induction as with
  | nil => exact reads_pure _
  | cons a as ih =>
    have hhead := h a List.mem_cons_self
    have htail := ih fun x hx => h x (List.mem_cons_of_mem a hx)
    exact hhead.bind htail.map

/-! ## Locality -/

/-- The result of `d` depends only on the bytes that `d` consumes, and so does an
exception it throws. -/
structure Local (d : Decoder ε α) : Prop where
  ok : ∀ {input rest a}, d.run input = .ok (a, rest) → ∃ used, input = used ++ rest ∧ Reads d used a
  thrown : ∀ {input e}, d.run input = .error (.thrown e) →
    ∀ more, d.run (input ++ more) = .error (.thrown e)

theorem Local.pure (a : α) : Local (Pure.pure a : Decoder ε α) where
  ok h := by
    obtain ⟨rfl, rfl⟩ := pure_ok.mp h
    exact ⟨[], rfl, reads_pure a⟩
  thrown h := by cases h

theorem Local.throw (e : ε) : Local (Decoder.throw e : Decoder ε α) where
  ok h := by cases h
  thrown h := by
    intro more
    cases h
    rfl

theorem Local.take (n : Nat) : Local (Decoder.take n : Decoder ε _) where
  ok h := by
    obtain ⟨hlen, rfl⟩ := take_ok.mp h
    exact ⟨_, rfl, reads_take hlen⟩
  thrown h := absurd h take_not_thrown

theorem Local.bind {d : Decoder ε α} {f : α → Decoder ε β} (hd : Local d)
    (hf : ∀ a, Local (f a)) : Local (d >>= f) where
  ok h := by
    obtain ⟨a, mid, hda, hfa⟩ := bind_ok.mp h
    obtain ⟨used, rfl, hreads⟩ := hd.ok hda
    obtain ⟨used', rfl, hreads'⟩ := (hf a).ok hfa
    exact ⟨used ++ used', (List.append_assoc ..).symm, hreads.bind hreads'⟩
  thrown {input e} h := by
    intro more
    rcases bind_error.mp h with hda | ⟨a, mid, hda, hfa⟩
    · exact bind_of_error (hd.thrown hda more)
    · obtain ⟨used, rfl, hreads⟩ := hd.ok hda
      rw [List.append_assoc, bind_of_ok (hreads _), (hf a).thrown hfa]

theorem Local.repeatN {d : Decoder ε α} (hd : Local d) (n : Nat) : Local (d.repeatN n) := by
  induction n with
  | zero => exact .pure _
  | succ n ih => exact hd.bind fun a => ih.bind fun as => .pure _

/-- A self-delimiting encoding that lost some of its last bytes makes a local decoder
read past the end: it neither returns nor throws. -/
theorem Local.cut {d : Decoder ε α} (hd : Local d) {bs p : List UInt8} {a : α}
    (h : Reads d bs a) (hp : p <+: bs) (hne : p ≠ bs) : d.run p = .error .outOfBounds := by
  obtain ⟨q, rfl⟩ := hp
  cases hrun : d.run p with
  | ok r =>
    exfalso
    obtain ⟨b, rest⟩ := r
    obtain ⟨used, rfl, hreads⟩ := hd.ok hrun
    have hlong : d.run ((used ++ rest) ++ q) = .ok (b, rest ++ q) := by
      rw [List.append_assoc, hreads]
    rw [h.run] at hlong
    injection hlong with hpair
    have hq : q = [] := (List.append_eq_nil_iff.mp (Prod.mk.inj hpair).2.symm).2
    exact hne (by rw [hq, List.append_nil])
  | error e =>
    cases e with
    | outOfBounds => rfl
    | thrown e =>
      have hlong := hd.thrown hrun q
      rw [h.run] at hlong
      cases hlong

/-! ## Sizes -/

/-- What `d` consumes is as long as the encoding `size` of the value it returns. -/
def Sized (d : Decoder ε α) (size : α → Nat) : Prop :=
  ∀ {input rest a}, d.run input = .ok (a, rest) → input.length = size a + rest.length

/-- The sizes of several values together. -/
def total (size : α → Nat) : List α → Nat
  | [] => 0
  | a :: as => size a + total size as

theorem length_flatMap_eq_total (enc : α → List UInt8) (as : List α) :
    (as.flatMap enc).length = total (fun a => (enc a).length) as := by
  induction as with
  | nil => rfl
  | cons a as ih => rw [List.flatMap_cons, List.length_append, ih, total]

theorem length_le_total {size : α → Nat} (h : ∀ a, 1 ≤ size a) (as : List α) :
    as.length ≤ total size as := by
  induction as with
  | nil => exact Nat.le_refl _
  | cons a as ih =>
    have ha := h a
    rw [List.length_cons, total]
    omega

theorem total_eq_mul {size : α → Nat} {m : Nat} {as : List α} (h : ∀ a ∈ as, size a = m) :
    total size as = as.length * m := by
  induction as with
  | nil => simp [total]
  | cons a as ih =>
    have htail := ih fun x hx => h x (List.mem_cons_of_mem a hx)
    rw [total, h a List.mem_cons_self, htail, List.length_cons, Nat.succ_mul, Nat.add_comm]

theorem Sized.repeatN {d : Decoder ε α} {size : α → Nat} (h : Sized d size) (n : Nat) :
    Sized (d.repeatN n) (total size) := by
  induction n with
  | zero =>
    intro input rest as hrun
    obtain ⟨rfl, rfl⟩ := pure_ok.mp hrun
    simp [total]
  | succ n ih =>
    intro input rest as hrun
    obtain ⟨a, mid, ha, hrun⟩ := bind_ok.mp hrun
    obtain ⟨as', mid', has, hrun⟩ := bind_ok.mp hrun
    obtain ⟨rfl, rfl⟩ := pure_ok.mp hrun
    have hhead := h ha
    have htail := ih has
    rw [total]
    omega

theorem take_of_le {n : Nat} {input : List UInt8} (h : n ≤ input.length) :
    (take n : Decoder ε _).run input = .ok (input.take n, input.drop n) := by
  rw [take_run, if_neg (Nat.not_lt.mpr h)]

/-- `d` consumes `n` bytes whatever they are. -/
structure Width (d : Decoder ε α) (n : Nat) : Prop where
  enough : ∀ {input}, n ≤ input.length → ∃ a, d.run input = .ok (a, input.drop n)
  short : ∀ {input}, input.length < n → d.run input = .error .outOfBounds

theorem Width.pure (a : α) : Width (Pure.pure a : Decoder ε α) 0 where
  enough _ := ⟨a, rfl⟩
  short h := absurd h (Nat.not_lt_zero _)

theorem Width.take (n : Nat) : Width (Decoder.take n : Decoder ε _) n where
  enough h := ⟨_, take_of_le h⟩
  short h := by rw [take_run, if_pos h]

theorem Width.bind {d : Decoder ε α} {f : α → Decoder ε β} {n m : Nat} (hd : Width d n)
    (hf : ∀ a, Width (f a) m) : Width (d >>= f) (n + m) where
  enough {input} h := by
    obtain ⟨a, ha⟩ := hd.enough (Nat.le_of_add_right_le h)
    have hrest : m ≤ (input.drop n).length := by
      rw [List.length_drop]
      omega
    obtain ⟨b, hb⟩ := (hf a).enough hrest
    exact ⟨b, by rw [bind_of_ok ha, hb, List.drop_drop]⟩
  short {input} h := by
    by_cases hn : n ≤ input.length
    · obtain ⟨a, ha⟩ := hd.enough hn
      rw [bind_of_ok ha]
      apply (hf a).short
      rw [List.length_drop]
      omega
    · exact bind_of_error (hd.short (Nat.lt_of_not_le hn))

end Decoder
