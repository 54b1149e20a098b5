import JacobOS.Lib.AddressRange
import JacobOS.Lib.LittleEndian

/-!
# Memory and the byte loops of `lib/string.c`

The machine's memory is a byte for every 32-bit address.  The machine also keeps the addresses it
has read and written, so that a result can speak about every access of a function and not only about
what the memory holds in the end.
-/

namespace JacobOS

open AddressRange LittleEndian

abbrev Mem := UInt32 → UInt8

structure Machine where
  mem : Mem
  /-- The addresses read so far, the latest first. -/
  loads : List UInt32
  /-- The addresses written so far, the latest first. -/
  stores : List UInt32

abbrev MachineM := StateM Machine

namespace Machine

/-- A machine that has not accessed its memory yet. -/
def start (m : Mem) : Machine := ⟨m, [], []⟩

def load8 (a : UInt32) : MachineM UInt8 := fun s => (s.mem a, { s with loads := a :: s.loads })

def load16 (a : UInt32) : MachineM UInt32 := do
  let b0 ← load8 a
  let b1 ← load8 (a + 1)
  return ofBytes b0 b1 0 0

def load32 (a : UInt32) : MachineM UInt32 := do
  let b0 ← load8 a
  let b1 ← load8 (a + 1)
  let b2 ← load8 (a + 2)
  let b3 ← load8 (a + 3)
  return ofBytes b0 b1 b2 b3

def store8 (a : UInt32) (c : UInt8) : MachineM Unit := fun s =>
  ((), { s with mem := Function.update s.mem a c, stores := a :: s.stores })

def memset (dst : UInt32) (c : UInt8) : Nat → MachineM Unit
  | 0 => return ()
  | n + 1 => do
      store8 dst c
      memset (dst + 1) c n

def memcpy (dst src : UInt32) : Nat → MachineM Unit
  | 0 => return ()
  | n + 1 => do
      let c ← load8 src
      store8 dst c
      memcpy (dst + 1) (src + 1) n

end Machine

/-! ## What the loops do to the memory -/

namespace Mem

def half (m : Mem) (a : UInt32) : UInt32 := ofBytes (m a) (m (a + 1)) 0 0

def word (m : Mem) (a : UInt32) : UInt32 := ofBytes (m a) (m (a + 1)) (m (a + 2)) (m (a + 3))

def fill (m : Mem) (dst : UInt32) (c : UInt8) : Nat → Mem
  | 0 => m
  | n + 1 => fill (Function.update m dst c) (dst + 1) c n

def copy (m : Mem) (dst src : UInt32) : Nat → Mem
  | 0 => m
  | n + 1 => copy (Function.update m dst (m src)) (dst + 1) (src + 1) n

theorem fill_of_not_mem (m : Mem) (dst : UInt32) (c : UInt8) (n : Nat) {x : UInt32}
    (hx : x ∉ span dst n) : fill m dst c n x = m x := by
  induction n generalizing m dst with
  | zero => rfl
  | succ n ih =>
    rw [mem_span_succ, not_or] at hx
    rw [fill, ih _ _ hx.2, Function.update_of_ne hx.1]

theorem copy_of_not_mem (m : Mem) (dst src : UInt32) (n : Nat) {x : UInt32}
    (hx : x ∉ span dst n) : copy m dst src n x = m x := by
  induction n generalizing m dst src with
  | zero => rfl
  | succ n ih =>
    rw [mem_span_succ, not_or] at hx
    rw [copy, ih _ _ _ hx.2, Function.update_of_ne hx.1]

-- A field of a record of `n` bytes depends on the bytes of the record only.
theorem half_congr {m m' : Mem} {a : UInt32} {n : Nat} (h : ∀ x ∈ span a n, m' x = m x) {k : Nat}
    (hk : k + 2 ≤ n) : m'.half (a + UInt32.ofNat k) = m.half (a + UInt32.ofNat k) := by
  have hbyte : ∀ r, r < 2 →
      m' (a + UInt32.ofNat k + UInt32.ofNat r) = m (a + UInt32.ofNat k + UInt32.ofNat r) := by
    intro r hr
    apply h
    exact mem_span.mpr ⟨k + r, by omega, by rw [UInt32.add_assoc, ← UInt32.ofNat_add]⟩
  have h0 := hbyte 0 (by decide)
  rw [show a + UInt32.ofNat k + UInt32.ofNat 0 = a + UInt32.ofNat k from UInt32.add_zero _] at h0
  unfold half
  rw [h0, show (1 : UInt32) = UInt32.ofNat 1 from rfl, hbyte 1 (by decide)]

theorem word_congr {m m' : Mem} {a : UInt32} {n : Nat} (h : ∀ x ∈ span a n, m' x = m x) {k : Nat}
    (hk : k + 4 ≤ n) : m'.word (a + UInt32.ofNat k) = m.word (a + UInt32.ofNat k) := by
  have hbyte : ∀ r, r < 4 →
      m' (a + UInt32.ofNat k + UInt32.ofNat r) = m (a + UInt32.ofNat k + UInt32.ofNat r) := by
    intro r hr
    apply h
    exact mem_span.mpr ⟨k + r, by omega, by rw [UInt32.add_assoc, ← UInt32.ofNat_add]⟩
  have h0 := hbyte 0 (by decide)
  rw [show a + UInt32.ofNat k + UInt32.ofNat 0 = a + UInt32.ofNat k from UInt32.add_zero _] at h0
  unfold word
  rw [h0, show (1 : UInt32) = UInt32.ofNat 1 from rfl, hbyte 1 (by decide),
    show (2 : UInt32) = UInt32.ofNat 2 from rfl, hbyte 2 (by decide),
    show (3 : UInt32) = UInt32.ofNat 3 from rfl, hbyte 3 (by decide)]

/-- A 32-bit word stored at `a`. -/
def setWord (m : Mem) (a w : UInt32) : Mem :=
  Function.update (Function.update (Function.update (Function.update m
    a (wordByte w 0)) (a + 1) (wordByte w 1)) (a + 2) (wordByte w 2)) (a + 3) (wordByte w 3)

theorem setWord_of_not_mem (m : Mem) {a : UInt32} (w : UInt32) {x : UInt32} (hx : x ∉ span a 4) :
    m.setWord a w x = m x := by
  have hne : ∀ k, k < 4 → x ≠ a + UInt32.ofNat k := fun k hk he => hx (mem_span.mpr ⟨k, hk, he⟩)
  have h0 := hne 0 (by decide)
  have h1 : x ≠ a + 1 := hne 1 (by decide)
  have h2 : x ≠ a + 2 := hne 2 (by decide)
  have h3 : x ≠ a + 3 := hne 3 (by decide)
  rw [show a + UInt32.ofNat 0 = a from UInt32.add_zero a] at h0
  unfold setWord
  rw [Function.update_of_ne h3, Function.update_of_ne h2, Function.update_of_ne h1,
    Function.update_of_ne h0]

theorem word_setWord (m : Mem) (a w : UInt32) : (m.setWord a w).word a = w := by
  have hne : ∀ {j k : UInt32}, j ≠ k → a + j ≠ a + k := fun h he => h (UInt32.add_right_inj a |>.mp he)
  have h0 : ∀ {k : UInt32}, k ≠ 0 → a ≠ a + k := by
    intro k hk he
    exact hne (Ne.symm hk) ((UInt32.add_zero a).trans he)
  unfold word setWord
  rw [Function.update_self, Function.update_of_ne (h0 (by decide)),
    Function.update_of_ne (h0 (by decide)), Function.update_of_ne (h0 (by decide)),
    Function.update_self, Function.update_of_ne (hne (by decide)),
    Function.update_of_ne (hne (by decide)), Function.update_self,
    Function.update_of_ne (hne (by decide)), Function.update_self, ofBytes_wordByte]

theorem word_setWord_other (m : Mem) {a b : UInt32} (w : UInt32)
    (h : ∀ x ∈ span b 4, x ∉ span a 4) : (m.setWord a w).word b = m.word b := by
  have hkeep : ∀ x ∈ span b 4, m.setWord a w x = m x :=
    fun x hx => setWord_of_not_mem m w (h x hx)
  have hword := word_congr hkeep (k := 0) (by decide)
  rwa [show b + UInt32.ofNat 0 = b from UInt32.add_zero b] at hword

theorem half_lt (m : Mem) (a : UInt32) : (m.half a).toNat < 65536 := by
  have h0 := (m a).toNat_lt
  have h1 := (m (a + 1)).toNat_lt
  unfold half
  rw [ofBytes_toNat]
  simp only [UInt8.toNat_zero]
  omega

end Mem

namespace Machine

-- Reading changes neither the memory nor the list of written addresses.
@[simp] theorem load8_mem (a : UInt32) (s : Machine) : (load8 a s).2.mem = s.mem := rfl
@[simp] theorem load16_mem (a : UInt32) (s : Machine) : (load16 a s).2.mem = s.mem := rfl
@[simp] theorem load32_fst (a : UInt32) (s : Machine) : (load32 a s).1 = s.mem.word a := rfl
@[simp] theorem load32_mem (a : UInt32) (s : Machine) : (load32 a s).2.mem = s.mem := rfl
@[simp] theorem load32_stores (a : UInt32) (s : Machine) : (load32 a s).2.stores = s.stores := rfl

@[simp] theorem run_bind {α β : Type} (x : MachineM α) (f : α → MachineM β) (s : Machine) :
    (x >>= f) s = f (x s).1 (x s).2 := rfl

@[simp] theorem run_pure {α : Type} (a : α) (s : Machine) : (pure a : MachineM α) s = (a, s) := rfl

-- A read, a write loop or a test in front of the rest of a function.
theorem run_load8 {α : Type} (a : UInt32) (f : UInt8 → MachineM α) (s : Machine) :
    (load8 a >>= f) s = f (s.mem a) (load8 a s).2 := rfl

theorem run_load16 {α : Type} (a : UInt32) (f : UInt32 → MachineM α) (s : Machine) :
    (load16 a >>= f) s = f (s.mem.half a) (load16 a s).2 := rfl

theorem run_load32 {α : Type} (a : UInt32) (f : UInt32 → MachineM α) (s : Machine) :
    (load32 a >>= f) s = f (s.mem.word a) (load32 a s).2 := rfl

theorem run_ite {α : Type} (c : Prop) [Decidable c] (x y : MachineM α) (s : Machine) :
    (if c then x else y) s = if c then x s else y s := by
  split <;> rfl

/-- `t` is `s` after some reads. -/
structure Reads (s t : Machine) : Prop where
  mem : t.mem = s.mem
  stores : t.stores = s.stores

theorem Reads.refl (s : Machine) : Reads s s := ⟨rfl, rfl⟩

/-- Written are the addresses `st`: nothing new if `A` fails, and as `R` says if it holds. -/
def WritesIf (s : Machine) (A : Prop) (R : List UInt32 → Prop) (st : List UInt32) : Prop :=
  (¬ A ∧ st = s.stores) ∨ (A ∧ R st)

theorem WritesIf.and {s : Machine} {A B : Prop} {R : List UInt32 → Prop} {st : List UInt32} (hB : B)
    (h : WritesIf s A R st) : WritesIf s (B ∧ A) R st := by
  rcases h with ⟨hA, hst⟩ | ⟨hA, hR⟩
  · exact Or.inl ⟨fun hBA => hA hBA.2, hst⟩
  · exact Or.inr ⟨⟨hB, hA⟩, hR⟩

-- A field is read and compared before anything is written.
theorem Reads.check8 {α : Type} {s t : Machine} (h : Reads s t) {a : UInt32} {c : UInt8} {v : α}
    {p : MachineM α} {A : Prop} {R : List UInt32 → Prop}
    (hp : ∀ u, Reads s u → WritesIf s A R (p u).2.stores) :
    WritesIf s (s.mem a = c ∧ A) R ((load8 a >>= fun b => if b ≠ c then pure v else p) t).2.stores := by
  have hread : Reads s (load8 a t).2 := ⟨h.mem, h.stores⟩
  rw [run_load8, run_ite, h.mem, ite_not]
  by_cases hc : s.mem a = c
  · rw [if_pos hc]
    exact (hp _ hread).and hc
  · rw [if_neg hc]
    exact Or.inl ⟨fun hA => hc hA.1, hread.stores⟩

theorem Reads.check16 {α : Type} {s t : Machine} (h : Reads s t) {a c : UInt32} {v : α}
    {p : MachineM α} {A : Prop} {R : List UInt32 → Prop}
    (hp : ∀ u, Reads s u → WritesIf s A R (p u).2.stores) :
    WritesIf s (s.mem.half a = c ∧ A) R
      ((load16 a >>= fun b => if b ≠ c then pure v else p) t).2.stores := by
  have hread : Reads s (load16 a t).2 := ⟨h.mem, h.stores⟩
  rw [run_load16, run_ite, h.mem, ite_not]
  by_cases hc : s.mem.half a = c
  · rw [if_pos hc]
    exact (hp _ hread).and hc
  · rw [if_neg hc]
    exact Or.inl ⟨fun hA => hc hA.1, hread.stores⟩

@[simp] theorem memset_mem (dst : UInt32) (c : UInt8) (n : Nat) (s : Machine) :
    (memset dst c n s).2.mem = s.mem.fill dst c n := by
  induction n generalizing dst s with
  | zero => rfl
  | succ n ih => exact ih (dst + 1) _

@[simp] theorem memcpy_mem (dst src : UInt32) (n : Nat) (s : Machine) :
    (memcpy dst src n s).2.mem = s.mem.copy dst src n := by
  induction n generalizing dst src s with
  | zero => rfl
  | succ n ih => exact ih (dst + 1) (src + 1) _

theorem mem_memset_stores (dst : UInt32) (c : UInt8) (n : Nat) (s : Machine) (x : UInt32) :
    x ∈ (memset dst c n s).2.stores ↔ x ∈ span dst n ∨ x ∈ s.stores := by
  induction n generalizing dst s with
  | zero => simp [memset]
  | succ n ih =>
    rw [mem_span_succ]
    show x ∈ (memset (dst + 1) c n (store8 dst c s).2).2.stores ↔ _
    rw [ih]
    show x ∈ span (dst + 1) n ∨ x ∈ dst :: s.stores ↔ _
    rw [List.mem_cons]
    tauto

theorem mem_memcpy_stores (dst src : UInt32) (n : Nat) (s : Machine) (x : UInt32) :
    x ∈ (memcpy dst src n s).2.stores ↔ x ∈ span dst n ∨ x ∈ s.stores := by
  induction n generalizing dst src s with
  | zero => simp [memcpy]
  | succ n ih =>
    rw [mem_span_succ]
    show x ∈ (memcpy (dst + 1) (src + 1) n (store8 dst (s.mem src) (load8 src s).2).2).2.stores ↔ _
    rw [ih]
    show x ∈ span (dst + 1) n ∨ x ∈ dst :: s.stores ↔ _
    rw [List.mem_cons]
    tauto

end Machine

end JacobOS
