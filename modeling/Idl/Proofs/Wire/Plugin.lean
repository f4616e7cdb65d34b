import Idl.Proofs.Wire.Descriptor
import Idl.Wire.Plugin

/-!
# Requests and responses survive the wire

A plugin gets back the request that was written for it, with every table in its order, whatever
stands behind it; from a request that breaks off it gets an error.  The same holds of the response
on its way back.
-/

namespace Idl

open Wire Reader

variable {limit : Nat}

/-- The value is decoded from the bytes, whatever follows them, and nothing is decoded from a proper
prefix of them. -/
def Delimits {α : Type} (decode : Bytes → Except WireFault α) (bytes : Bytes) (a : α) : Prop :=
  (∀ rest, decode (bytes ++ rest) = .ok a) ∧
    ∀ part, part <+: bytes → part ≠ bytes → ∃ fault, decode part = .error fault

theorem Reader.delimits
    {α : Type} {read : Reader α} {bytes : Bytes} {a : α}
    (h : ∀ limit, Accepts limit read bytes a) (hfits : Fits bytes) :
    Delimits (Reader.decode read) bytes a := by
  constructor
  · intro rest
    have hread := (h ((bytes ++ rest).length + 1) hfits).1 rest (Nat.lt_succ_self _)
    rw [Reader.decode, hread]
    rfl
  · rintro part ⟨after, rfl⟩ hpart
    have hafter : after ≠ [] := by
      rintro rfl
      exact hpart (List.append_nil part).symm
    obtain ⟨fault, hfault⟩ := (h (part.length + 1) hfits).2 part after rfl hafter
      (Nat.lt_succ_self _)
    refine ⟨fault, ?_⟩
    rw [Reader.decode, hfault]
    rfl

theorem Output.accepts (output : Output) : Accepts limit Output.read output.write output := by
  have hdata : Accepts limit (.list .byte) (writeList (fun byte => [byte]) output.data)
      output.data :=
    accepts_list (fun byte _ => List.cons_ne_nil byte []) fun byte _ => accepts_byte byte
  exact (accepts_text output.file).bind (hdata.bind_pure _)

theorem BuildResponse.accepts (response : BuildResponse) :
    Accepts limit BuildResponse.read response.write response := by
  have houtputs : Accepts limit (.list Output.read) response.write response.outputs :=
    accepts_list (fun _ _ => append_ne_nil_of_text) fun output _ => output.accepts
  exact houtputs.bind_pure _

/-- No table in the request has two entries for one key. -/
structure BuildRequest.Keyed (request : BuildRequest) : Prop where
  programs : request.programs.Keyed
  files : ∀ entry ∈ request.programs, entry.2.Keyed

theorem BuildRequest.Keyed.accepts {request : BuildRequest} (hkeys : request.Keyed) :
    Accepts limit BuildRequest.read request.write request := by
  have hfiles : Accepts limit (.list .text) (writeList writeText request.files) request.files :=
    accepts_list (fun file _ => writeText_ne_nil file) fun file _ => accepts_text file
  have hprograms : Accepts limit (.table FileDesc.read)
      (writeTable FileDesc.write request.programs) request.programs :=
    accepts_table hkeys.programs fun entry hentry => (hkeys.files entry hentry).accepts
  exact hfiles.bind (hprograms.bind_pure _)

/-- A request whose tables have distinct keys, in any order, is decoded from its bytes as it was,
and so is every response; neither is decoded from fewer bytes.  The bytes must be few enough for
their number to be written in 64 bits, as all bytes in the memory of a machine are. -/
theorem request_and_response_delimited :
    (∀ request : BuildRequest, request.Keyed → Fits request.write →
      Delimits BuildRequest.decode request.write request) ∧
    ∀ response : BuildResponse, Fits response.write →
      Delimits BuildResponse.decode response.write response := by
  constructor
  · intro request hkeys hfits
    exact Reader.delimits (fun _ => hkeys.accepts) hfits
  · intro response hfits
    exact Reader.delimits (fun _ => response.accepts) hfits

/-- A field holds a copy of a nested message, and the options stand in an order of their own. -/
def treeRequest : BuildRequest :=
  let leaf : MessageDesc := .named "Leaf"
  let leaves : FieldDesc := ⟨"größe", 1, ⟨.list, "Leaf", "", none, none, true, some leaf⟩, [], none⟩
  let tree : MessageDesc :=
    ⟨"Tree", some ⟨["a tree"], ""⟩, [("z", none), ("a", some (.int (-1)))], [leaves], [leaf], []⟩
  ⟨["b.wproto"],
    [("b.wproto", ⟨"b.wproto", ⟨"b", none⟩, [], [⟨"a", "a.wproto", none⟩], [], [tree], [], []⟩),
      ("a.wproto", ⟨"a.wproto", ⟨"a", none⟩, [], [], [], [], [], []⟩)]⟩

theorem treeRequest_delimited :
    treeRequest.Keyed ∧ Fits treeRequest.write ∧
      Delimits BuildRequest.decode treeRequest.write treeRequest ∧
      Delimits BuildResponse.decode (BuildResponse.write ⟨[⟨"leaf.txt", [0, 255]⟩]⟩)
        ⟨[⟨"leaf.txt", [0, 255]⟩]⟩ := by
  have hleaf : (MessageDesc.named "Leaf").Keyed := by
    constructor <;> simp [MessageDesc.named, Assoc.Keyed]
  have hkeys : treeRequest.Keyed := by
    constructor
    · unfold Assoc.Keyed
      decide
    · intro entry hentry
      simp only [treeRequest, List.mem_cons, List.not_mem_nil, or_false] at hentry
      rcases hentry with rfl | rfl
      · constructor <;> simp [Assoc.Keyed]
        constructor <;> simp [Assoc.Keyed, hleaf]
      · constructor <;> simp [Assoc.Keyed]
  have hfits : Fits treeRequest.write := by
    unfold Fits
    decide +kernel
  exact ⟨hkeys, hfits, request_and_response_delimited.1 treeRequest hkeys hfits,
    request_and_response_delimited.2 ⟨[⟨"leaf.txt", [0, 255]⟩]⟩ (by unfold Fits; decide +kernel)⟩

end Idl
