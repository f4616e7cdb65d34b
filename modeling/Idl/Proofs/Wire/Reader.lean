import Idl.Proofs.Text.Utf8
import Idl.Wire.Basic
import Mathlib.Algebra.Ring.Nat

/-!
# Readers that accept what is written

A reader accepts some bytes as a value if it reads that value from them, whatever follows, and if it
fails on anything that breaks off inside them.  Both parts are put together from part to part, in
the order in which the bytes are written.  A reader that uses itself does so on fewer bytes than it
was given, so acceptance is stated for inputs below a limit.
-/

namespace Idl

open List

variable {bytes bytes' : Bytes}

namespace Wire

/-- Fewer bytes than a length of 64 bits can count. -/
def Fits (bytes : Bytes) : Prop := bytes.length < 2 ^ 64

theorem Fits.of_append (h : Fits (bytes ++ bytes')) : Fits bytes ∧ Fits bytes' := by
  unfold Fits at *
  rw [length_append] at h
  omega

@[simp] theorem length_littleEndian (width n : Nat) : (littleEndian width n).length = width := by
  induction width generalizing n with
  | zero => rfl
  | succ width ih => rw [littleEndian, length_cons, ih]

theorem ofLittleEndian_littleEndian
    {width n : Nat} (hn : n < 256 ^ width) : ofLittleEndian (littleEndian width n) = n := by
  induction width generalizing n with
  | zero =>
    have hzero : n = 0 := by simpa using hn
    rw [hzero, littleEndian, ofLittleEndian]
  | succ width ih =>
    have hrest : n / 256 < 256 ^ width := by
      rw [Nat.pow_succ] at hn
      exact Nat.div_lt_of_lt_mul (by omega)
    have hbyte : (UInt8.ofNat n).toNat = n % 256 := UInt8.toNat_ofNat'
    rw [littleEndian, ofLittleEndian, ih hrest, hbyte]
    exact Nat.mod_add_div n 256

end Wire

namespace Reader

open Wire

variable {α β : Type} {limit : Nat} {read : Reader α} {next : α → Reader β} {a : α}
  {write : α → Bytes} {xs : List α}

/-- On inputs shorter than the limit, the reader reads the value from the bytes and leaves what
follows them, and fails on a proper prefix of them.  Nothing is said of bytes that are too many to
be counted. -/
def Accepts (limit : Nat) (read : Reader α) (bytes : Bytes) (a : α) : Prop :=
  Fits bytes →
    (∀ rest, (bytes ++ rest).length < limit → read (bytes ++ rest) = .ok (a, rest)) ∧
    ∀ before after, bytes = before ++ after → after ≠ [] → before.length < limit →
      ∃ fault, read before = .error fault

theorem Accepts.pure (a : α) : Accepts limit (pure a) [] a := by
  intro _
  constructor
  · intro rest _
    rfl
  · intro before after heq hafter
    have hnil := append_eq_nil_iff.1 heq.symm
    exact absurd hnil.2 hafter

/-- Reading on from what is left.  What was read counts towards the limit. -/
theorem Accepts.bind_of_le
    {limit' : Nat} {b : β} (h : Accepts limit read bytes a) (h' : Accepts limit' (next a) bytes' b)
    (hlimit : limit ≤ bytes.length + limit') :
    Accepts limit (read >>= next) (bytes ++ bytes') b := by
  intro hfits
  obtain ⟨hread, hshort⟩ := h hfits.of_append.1
  obtain ⟨hread', hshort'⟩ := h' hfits.of_append.2
  have hbind : ∀ rest, (bytes ++ rest).length < limit →
      (read >>= next) (bytes ++ rest) = next a rest := by
    intro rest hrest
    change (read (bytes ++ rest) >>= fun found => next found.1 found.2) = next a rest
    rw [hread rest hrest]
    rfl
  constructor
  · intro rest hrest
    rw [append_assoc] at hrest ⊢
    rw [hbind _ hrest]
    apply hread'
    rw [length_append] at hrest
    omega
  · intro before after heq hafter hbefore
    -- the input breaks off inside the first part, or behind it
    have hfails : (∃ fault, read before = .error fault) →
        ∃ fault, (read >>= next) before = .error fault := by
      rintro ⟨fault, hfault⟩
      refine ⟨fault, ?_⟩
      change (read before >>= fun found => next found.1 found.2) = .error fault
      rw [hfault]
      rfl
    rcases append_eq_append_iff.1 heq with ⟨middle, rfl, hmiddle⟩ | ⟨middle, rfl, rfl⟩
    · rw [hbind middle hbefore]
      apply hshort' middle after hmiddle hafter
      rw [length_append] at hbefore
      omega
    · by_cases hmiddle : middle = []
      · subst hmiddle
        have hend := hbind [] (by simpa using hbefore)
        rw [append_nil, append_nil] at *
        rw [hend]
        refine hshort' [] _ rfl hafter ?_
        rw [length_nil]
        omega
      · exact hfails (hshort before middle rfl hmiddle hbefore)

theorem Accepts.bind
    {b : β} (h : Accepts limit read bytes a) (h' : Accepts limit (next a) bytes' b) :
    Accepts limit (read >>= next) (bytes ++ bytes') b :=
  h.bind_of_le h' (Nat.le_add_left _ _)

theorem Accepts.bind_end
    {b : β} (h : Accepts limit read bytes a) (h' : Accepts limit (next a) [] b) :
    Accepts limit (read >>= next) bytes b := by
  have hbind := h.bind h'
  rwa [append_nil] at hbind

theorem Accepts.bind_pure (h : Accepts limit read bytes a) (f : α → β) :
    Accepts limit (do return f (← read)) bytes (f a) :=
  h.bind_end (Accepts.pure (f a))

/-- Acceptance below a limit depends on what the reader does below that limit. -/
theorem Accepts.congr
    {read' : Reader α} (h : Accepts limit read bytes a)
    (hread : ∀ input, input.length < limit → read' input = read input) :
    Accepts limit read' bytes a := by
  intro hfits
  obtain ⟨hlong, hshort⟩ := h hfits
  constructor
  · intro rest hrest
    rw [hread _ hrest]
    exact hlong rest hrest
  · intro before after heq hafter hbefore
    rw [hread _ hbefore]
    exact hshort before after heq hafter hbefore

/-! ## Numbers and texts -/

theorem accepts_take
    (bytes : Bytes) (fault : WireFault) : Accepts limit (take bytes.length fault) bytes bytes := by
  intro _
  constructor
  · intro rest _
    have henough : ¬ (bytes ++ rest).length < bytes.length := by
      rw [length_append]
      omega
    rw [take, if_neg henough, take_left, drop_left]
  · intro before after heq hafter _
    have hshort : before.length < bytes.length := by
      have := length_pos_of_ne_nil hafter
      rw [heq, length_append]
      omega
    exact ⟨fault, if_pos hshort⟩

theorem accepts_byte (b : UInt8) : Accepts limit byte [b] b := by
  intro _
  constructor
  · intro rest _
    rfl
  · intro before after heq hafter _
    have hnil : before = [] := by
      rcases append_eq_singleton_iff.1 heq.symm with ⟨hbefore, -⟩ | ⟨-, hnone⟩
      · exact hbefore
      · exact absurd hnone hafter
    exact ⟨.endOfInput, by rw [hnil]; rfl⟩

theorem accepts_number {width n : Nat} (hn : n < 256 ^ width) :
    Accepts limit (number width) (littleEndian width n) n := by
  have htake : Accepts limit (take (littleEndian width n).length .endOfInput)
      (littleEndian width n) (littleEndian width n) := accepts_take _ _
  rw [length_littleEndian] at htake
  have hnumber := htake.bind_pure ofLittleEndian
  rw [ofLittleEndian_littleEndian hn] at hnumber
  rw [number, map_eq_pure_bind]
  exact hnumber

theorem accepts_length {n : Nat} (hn : n < 2 ^ 64) : Accepts limit length (writeLength n) n :=
  accepts_number (by omega)

theorem accepts_int (n : Int64) : Accepts limit int (writeInt n) n := by
  have hlt : n.toUInt64.toNat < 256 ^ 8 := by
    have := n.toUInt64.toNat_lt
    omega
  have hnumber : Accepts limit (do return (UInt64.ofNat (← number 8)).toInt64) (writeInt n)
      (UInt64.ofNat n.toUInt64.toNat).toInt64 :=
    (accepts_number hlt).bind_pure fun value => (UInt64.ofNat value).toInt64
  rw [UInt64.ofNat_toNat] at hnumber
  exact hnumber

theorem accepts_bool (b : Bool) : Accepts limit bool (writeBool b) b := by
  have hnext : Accepts limit (if (if b then 1 else 0 : UInt8) = 0 then Pure.pure false
      else if (if b then 1 else 0 : UInt8) = 1 then Pure.pure true
      else fail (.invalidBool (if b then 1 else 0))) [] b := by
    cases b <;> exact Accepts.pure _
  exact (accepts_byte _).bind hnext

theorem accepts_text (s : String) : Accepts limit text (writeText s) s := by
  intro hfits
  have hlength : (Text.encodeUtf8 s).length < 2 ^ 64 := hfits.of_append.2
  refine (accepts_length hlength).bind ?_ hfits
  refine (accepts_take (Text.encodeUtf8 s) .shortText).bind_end ?_
  rw [Text.decodeUtf8_encodeUtf8]
  exact Accepts.pure s

/-! ## Alternatives, lists and tables -/

theorem accepts_choice
    {alternatives : List (Reader α)} {index : Nat} (hindex : index < 2 ^ 32)
    (hread : alternatives[index]? = some read) (h : Accepts limit read bytes a) :
    Accepts limit (choice alternatives) (writeIndex index ++ bytes) a := by
  have hnumber : Accepts limit (number 4) (writeIndex index) index := accepts_number (by omega)
  refine hnumber.bind ?_
  rw [hread]
  exact h

theorem accepts_option {value : Option α} (h : ∀ a ∈ value, Accepts limit read (write a) a) :
    Accepts limit (option read) (writeOption write value) value := by
  cases value with
  | none => exact (accepts_byte 0).bind (Accepts.pure none)
  | some a => exact (accepts_byte 1).bind ((h a rfl).bind_pure some)

theorem accepts_repeated (h : ∀ x ∈ xs, Accepts limit read (write x) x) :
    Accepts limit (repeated read xs.length) (xs.flatMap write) xs := by
  induction xs with
  | nil => exact Accepts.pure []
  | cons x xs ih =>
    have hrest := ih fun y hy => h y (mem_cons_of_mem _ hy)
    exact (h x mem_cons_self).bind (hrest.bind_pure (x :: ·))

theorem length_le_flatMap (h : ∀ x ∈ xs, write x ≠ []) :
    xs.length ≤ (xs.flatMap write).length := by
  induction xs with
  | nil => simp
  | cons x xs ih =>
    have hfirst := length_pos_of_ne_nil (h x mem_cons_self)
    have hrest := ih fun y hy => h y (mem_cons_of_mem _ hy)
    rw [flatMap_cons, length_append, length_cons]
    omega

theorem accepts_list
    (hwrite : ∀ x ∈ xs, write x ≠ []) (h : ∀ x ∈ xs, Accepts limit read (write x) x) :
    Accepts limit (list read) (writeList write xs) xs := by
  intro hfits
  have hlength : xs.length < 2 ^ 64 :=
    Nat.lt_of_le_of_lt (length_le_flatMap hwrite) hfits.of_append.2
  exact (accepts_length hlength).bind (accepts_repeated h) hfits

theorem writeText_ne_nil (s : String) : writeText s ≠ [] := by
  intro hnil
  have hlength := congrArg List.length hnil
  simp [writeText, writeLength] at hlength

/-- A table with distinct keys keeps its entries in their order. -/
theorem accepts_table
    {entries : Assoc String α} (hkeys : (entries.map (·.1)).Nodup)
    (h : ∀ entry ∈ entries, Accepts limit read (write entry.2) entry.2) :
    Accepts limit (table read) (writeTable write entries) entries := by
  have hlist : Accepts limit (list do return ((← text), (← read)))
      (writeTable write entries) entries := by
    refine accepts_list ?_ ?_
    · intro entry _ hnil
      exact writeText_ne_nil entry.1 (append_eq_nil_iff.1 hnil).1
    · intro entry hentry
      exact (accepts_text entry.1).bind ((h entry hentry).bind_pure (entry.1, ·))
  have htable := hlist.bind_pure Assoc.ofEntries
  rw [Assoc.ofEntries_eq_self hkeys] at htable
  exact htable

/-! ## Readers that use themselves -/

/-- A reader that uses itself below its input accepts what its body accepts, when for the body's
inner reader any may be taken that is as good below the input. -/
theorem accepts_recursive
    {body : Reader α → Reader α}
    (h : ∀ (size : Nat) (inner : Reader α),
      (∀ input, input.length < size → inner input = recursive body input) →
        Accepts (size + 1) (body inner) bytes a) :
    Accepts limit (recursive body) bytes a := by
  have hbody : ∀ input : Bytes, ∃ inner : Reader α,
      recursive body input = body inner input ∧
        ∀ rest, rest.length < input.length → inner rest = recursive body rest := by
    intro input
    refine ⟨fun rest => if rest.length < input.length then recursive body rest
      else .error .endOfInput, ?_, fun rest hrest => if_pos hrest⟩
    rw [recursive]
  intro hfits
  constructor
  · intro rest _
    obtain ⟨inner, heq, hinner⟩ := hbody (bytes ++ rest)
    rw [heq]
    exact (h _ inner hinner hfits).1 rest (Nat.lt_succ_self _)
  · intro before after heq hafter _
    obtain ⟨inner, hrec, hinner⟩ := hbody before
    rw [hrec]
    exact (h _ inner hinner hfits).2 before after heq hafter (Nat.lt_succ_self _)

end Reader

end Idl
