import Idl.Proofs.List
import Idl.Proofs.Schema.Listing
import Idl.Proofs.Token.Comments

/-!
# Distribution of comments

Declarations take comments one after the other, each from what those before it have left.  So no
comment is taken twice; a declaration takes a run of comments above it that goes on as far as they
are left; and a comment that ends a line goes to the first declaration that starts before it on this
line.  Here a line has at most one comment.
-/

namespace Idl

open List

variable {place : Span} {places : List Span} {node : Span × Taken}

/-- The comments that a declaration takes. -/
structure Taken where
  lines : List Comment
  tail : Option Comment

namespace Taken

def doc (taken : Taken) : Doc := ⟨taken.lines.map (·.text), taken.tail.map (·.text)⟩

def comments (taken : Taken) : List Comment := taken.lines ++ taken.tail.toList

end Taken

namespace Comment

variable {index : LineIndex} {comments : List Comment} {line offset : Nat} {c c' : Comment}

/-! ## Comments above a line -/

theorem mem_of_mem_above (h : c ∈ above comments line) : c ∈ comments := by
  induction line with
  | zero => cases h
  | succ line ih =>
    rw [above] at h
    split at h
    next d hd =>
      rcases mem_append.1 h with h | h
      · exact ih h
      · obtain rfl := mem_singleton.1 h
        exact mem_of_find?_eq_some hd
    next => cases h

/-- They stand alone on the lines directly above, one on each. -/
theorem line_of_above {k : Nat} (h : (above comments line)[k]? = some c) :
    c.ownLine ∧ c.line + ((above comments line).length - k) = line := by
  induction line generalizing k with
  | zero => cases h
  | succ line ih =>
    rw [above] at h ⊢
    split at h
    next d hd =>
      rw [length_append, length_singleton]
      rcases Nat.lt_or_ge k (above comments line).length with hk | hk
      · rw [getElem?_append_left hk] at h
        obtain ⟨hown, hline⟩ := ih h
        exact ⟨hown, by omega⟩
      · rw [getElem?_append_right hk] at h
        obtain ⟨hlt, rfl⟩ := List.getElem?_eq_some_iff.1 h
        rw [length_singleton] at hlt
        have hfound := find?_some hd
        simp only [Bool.and_eq_true, beq_iff_eq] at hfound
        simp only [getElem_singleton]
        exact ⟨hfound.2, by omega⟩
    next => cases h

theorem pairwise_above (comments : List Comment) (line : Nat) :
    (above comments line).Pairwise fun c c' => c.line < c'.line := by
  refine pairwise_iff_getElem.2 fun i j hi hj hij => ?_
  have hline := (line_of_above (getElem?_eq_getElem hi)).2
  have hline' := (line_of_above (getElem?_eq_getElem hj)).2
  omega

/-- They go on as far up as there are any. -/
theorem line_ne_of_above (hc : c ∈ comments) (hown : c.ownLine) :
    c.line + (above comments line).length + 1 ≠ line := by
  induction line with
  | zero => exact Nat.succ_ne_zero _
  | succ line ih =>
    rw [above]
    split
    next d hd =>
      rw [length_append, length_singleton]
      omega
    next hnone =>
      intro heq
      have hother := find?_eq_none.1 hnone c hc
      simp only [Bool.and_eq_true, beq_iff_eq, hown, and_true] at hother
      simp only [length_nil] at heq
      omega

/-! ## Comments at the end of a line -/

theorem tailAt?_cases (h : tailAt? comments line offset = some c) :
    c ∈ comments ∧ c.line = line ∧ c.ownLine = false ∧ offset < c.start := by
  have hfound := find?_some h
  simp only [Bool.and_eq_true, beq_iff_eq, Bool.not_eq_true', decide_eq_true_eq] at hfound
  exact ⟨mem_of_find?_eq_some h, hfound.1.1, hfound.1.2, hfound.2⟩

theorem eq_of_line_eq
    (hcomments : comments.Pairwise fun c c' => c.line < c'.line) (hc : c ∈ comments)
    (hc' : c' ∈ comments) (h : c.line = c'.line) : c = c' := by
  have hnodup : (comments.map (·.line)).Nodup := pairwise_map.2 (hcomments.imp Nat.ne_of_lt)
  exact inj_on_of_nodup_map hnodup hc hc' h

theorem tailAt?_eq_some
    (hcomments : comments.Pairwise fun c c' => c.line < c'.line) (hc : c ∈ comments)
    (hown : c.ownLine = false) (hline : c.line = line) (hstart : offset < c.start) :
    tailAt? comments line offset = some c := by
  cases h : tailAt? comments line offset with
  | none =>
    have hnone := find?_eq_none.1 h c hc
    simp [hline, hown, hstart] at hnone
  | some d =>
    obtain ⟨hd, hdline, -⟩ := tailAt?_cases h
    rw [eq_of_line_eq hcomments hd hc (hdline.trans hline.symm)]

/-! ## One declaration after the other -/

def takes (comments : List Comment) (index : LineIndex) (place : Span) : Taken where
  lines := above comments (index.line place.start)
  tail := tailAt? comments (index.line place.start) place.start

/-- The comments that are left. -/
def left (comments : List Comment) (taken : Taken) : List Comment :=
  comments.filter (· ∉ taken.comments)

/-- What each declaration takes, where each has what is left by those before it. -/
def serve (index : LineIndex) : List Comment → List Span → List (Span × Taken)
  | _, [] => []
  | comments, place :: places =>
    (place, takes comments index place) ::
      serve index (left comments (takes comments index place)) places

theorem mem_left_iff {taken : Taken} :
    c ∈ left comments taken ↔ c ∈ comments ∧ c ∉ taken.comments := by
  simp [left]

theorem map_fst_serve (index : LineIndex) (comments : List Comment) (places : List Span) :
    (serve index comments places).map (·.1) = places := by
  induction places generalizing comments with
  | nil => rfl
  | cons place places ih => rw [serve, map_cons, ih]

theorem docAt_eq (place : Span) :
    docAt comments index place.start =
      ((takes comments index place).doc, left comments (takes comments index place)) := by
  refine Prod.ext rfl (filter_congr fun c _ => ?_)
  rw [Bool.eq_iff_iff]
  simp [takes, Taken.comments, and_comm]

/-- The comments that are handed out are the texts of those that are taken. -/
theorem distribute_eq (ranked : List (Nat × Span)) :
    distribute index comments (ranked.map fun entry => (entry.1, entry.2.start)) =
      (ranked.map (·.1)).zip
        ((serve index comments (ranked.map (·.2))).map (·.2.doc)) := by
  induction ranked generalizing comments with
  | nil => rfl
  | cons entry ranked ih =>
    simp only [map_cons, distribute, docAt_eq, ih, serve, zip_cons_cons]

/-- A line comes from above, and a tail from the end of the line. -/
theorem cases_of_mem_takes (h : c ∈ (takes comments index place).comments) :
    c.ownLine = true ∧ c ∈ (takes comments index place).lines ∨
      c.ownLine = false ∧ (takes comments index place).tail = some c := by
  rcases mem_append.1 h with h | h
  · obtain ⟨k, hk⟩ := mem_iff_getElem?.1 h
    exact .inl ⟨(line_of_above hk).1, h⟩
  · have htail := Option.mem_toList.1 h
    exact .inr ⟨(tailAt?_cases htail).2.2.1, htail⟩

theorem mem_of_mem_takes (h : c ∈ (takes comments index place).comments) : c ∈ comments := by
  rcases mem_append.1 h with h | h
  · exact mem_of_mem_above h
  · exact (tailAt?_cases (Option.mem_toList.1 h)).1

/-- A declaration takes from the comments that are left, and what is not left has been taken
before. -/
theorem exists_remaining
    {before behind : List (Span × Taken)}
    (h : serve index comments places = before ++ node :: behind) :
    ∃ remaining, node.2 = takes remaining index node.1 ∧ remaining.Sublist comments ∧
      ∀ c ∈ comments, c ∉ remaining → ∃ earlier ∈ before,
        c.ownLine = true ∧ c ∈ earlier.2.lines ∨
          c.ownLine = false ∧ earlier.2.tail = some c := by
  induction before generalizing comments places with
  | nil =>
    cases places with
    | nil => cases h
    | cons first places =>
      cases h
      exact ⟨comments, rfl, .refl _, fun c hc hgone => absurd hc hgone⟩
  | cons earlier before ih =>
    cases places with
    | nil => cases h
    | cons first places =>
      obtain ⟨rfl, hmore⟩ := cons.inj h
      obtain ⟨remaining, htaken, hsublist, hremaining⟩ := ih hmore
      refine ⟨remaining, htaken, hsublist.trans filter_sublist, fun c hc hgone => ?_⟩
      by_cases hfirst : c ∈ (takes comments index first).comments
      · exact ⟨_, mem_cons_self, cases_of_mem_takes hfirst⟩
      · obtain ⟨earlier, hmem, hearlier⟩ := hremaining c (mem_left_iff.2 ⟨hc, hfirst⟩) hgone
        exact ⟨earlier, mem_cons_of_mem _ hmem, hearlier⟩

theorem exists_takes (h : node ∈ serve index comments places) :
    ∃ remaining, node.2 = takes remaining index node.1 ∧ remaining.Sublist comments := by
  obtain ⟨before, behind, hsplit⟩ := append_of_mem h
  obtain ⟨remaining, htaken, hsublist, -⟩ := exists_remaining hsplit
  exact ⟨remaining, htaken, hsublist⟩

theorem mem_of_mem_serve (h : node ∈ serve index comments places) (hc : c ∈ node.2.comments) :
    c ∈ comments := by
  obtain ⟨remaining, htaken, hsublist⟩ := exists_takes h
  rw [htaken] at hc
  exact hsublist.mem (mem_of_mem_takes hc)

/-- A tail ends the line on which its declaration starts, behind this start. -/
theorem tail_of_mem_serve (h : node ∈ serve index comments places) (hc : node.2.tail = some c) :
    c.ownLine = false ∧ c.line = index.line node.1.start ∧ node.1.start < c.start := by
  obtain ⟨remaining, htaken, -⟩ := exists_takes h
  rw [htaken] at hc
  obtain ⟨-, hline, hown, hstart⟩ := tailAt?_cases hc
  exact ⟨hown, hline, hstart⟩

theorem nodup_takes (comments : List Comment) (index : LineIndex) (place : Span) :
    (takes comments index place).comments.Nodup := by
  refine nodup_append.2 ⟨(pairwise_above _ _).imp fun h heq => ?_, ?_, ?_⟩
  · exact absurd (congrArg Comment.line heq) (Nat.ne_of_lt h)
  · cases (takes comments index place).tail with
    | none => exact nodup_nil
    | some c => exact nodup_singleton c
  · rintro c hc _ hc' rfl
    obtain ⟨k, hk⟩ := mem_iff_getElem?.1 hc
    have hown := (line_of_above hk).1
    rw [(tailAt?_cases (Option.mem_toList.1 hc')).2.2.1] at hown
    cases hown

theorem nodup_serve (index : LineIndex) (comments : List Comment) (places : List Span) :
    ((serve index comments places).flatMap (·.2.comments)).Nodup := by
  induction places generalizing comments with
  | nil => exact nodup_nil
  | cons place places ih =>
    rw [serve, flatMap_cons]
    refine nodup_append.2 ⟨nodup_takes _ _ _, ih _, ?_⟩
    rintro c hc _ hc' rfl
    obtain ⟨node, hnode, hmem⟩ := mem_flatMap.1 hc'
    exact (mem_left_iff.1 (mem_of_mem_serve hnode hmem)).2 hc

end Comment

/-! ## Who has which comments -/

/-- The declarations, served in this order, have comments of the given kind.  No comment is had
twice.  The lines of a declaration stand alone on consecutive lines, the last one directly above it,
and a comment that would go on with them upwards has been taken before.  A tail ends the line of its
declaration behind the start of this; and a comment that ends a line goes to the first declaration
that starts on this line before it. -/
structure Attached
    (line : Nat → Nat) (IsComment : Comment → Prop) (served : List (Span × Taken)) : Prop where
  comment : ∀ node ∈ served, ∀ c ∈ node.2.comments, IsComment c
  once : (served.flatMap (·.2.comments)).Nodup
  run : ∀ node ∈ served, ∀ k c, node.2.lines[k]? = some c →
    c.ownLine ∧ c.line + (node.2.lines.length - k) = line node.1.start
  whole : ∀ before node behind, served = before ++ node :: behind → ∀ c, IsComment c →
    c.ownLine → c.line + node.2.lines.length + 1 = line node.1.start →
    ∃ earlier ∈ before, c ∈ earlier.2.lines
  tail : ∀ node ∈ served, ∀ c, node.2.tail = some c →
    c.ownLine = false ∧ c.line = line node.1.start ∧ node.1.start < c.start
  first : ∀ c, IsComment c → c.ownLine = false →
    (∃ node ∈ served, c.line = line node.1.start ∧ node.1.start < c.start) →
    ∃ before node behind, served = before ++ node :: behind ∧ node.2.tail = some c ∧
      ∀ earlier ∈ before, ¬(c.line = line earlier.1.start ∧ earlier.1.start < c.start)

theorem attached_serve
    (index : LineIndex) {comments : List Comment}
    (hcomments : comments.Pairwise fun c c' => c.line < c'.line) (places : List Span) :
    Attached index.line (· ∈ comments) (Comment.serve index comments places) where
  comment node hnode c hc := Comment.mem_of_mem_serve hnode hc
  once := Comment.nodup_serve _ _ _
  run node hnode k c hc := by
    obtain ⟨remaining, htaken, -⟩ := Comment.exists_takes hnode
    rw [htaken] at hc ⊢
    exact Comment.line_of_above hc
  whole before node behind hsplit c hc hown hline := by
    obtain ⟨remaining, htaken, -, hremaining⟩ := Comment.exists_remaining hsplit
    rw [htaken] at hline
    have hgone : c ∉ remaining := fun hmem => Comment.line_ne_of_above hmem hown hline
    obtain ⟨earlier, hbefore, ⟨-, hlines⟩ | ⟨hother, -⟩⟩ := hremaining c hc hgone
    · exact ⟨earlier, hbefore, hlines⟩
    · rw [hown] at hother
      cases hother
  tail node hnode c hc := Comment.tail_of_mem_serve hnode hc
  first c hc hown hsome := by
    cases hfind : (Comment.serve index comments places).find? fun node =>
        c.line = index.line node.1.start ∧ node.1.start < c.start with
    | none =>
      obtain ⟨node, hnode, hat⟩ := hsome
      exact absurd (decide_eq_true hat) (find?_eq_none.1 hfind node hnode)
    | some node =>
      obtain ⟨hat, before, behind, hsplit, hbefore⟩ := find?_eq_some_iff_append.1 hfind
      have hearlier : ∀ earlier ∈ before,
          ¬(c.line = index.line earlier.1.start ∧ earlier.1.start < c.start) :=
        fun earlier hmem hat => by simpa [hat] using hbefore earlier hmem
      refine ⟨before, node, behind, hsplit, ?_, hearlier⟩
      obtain ⟨remaining, htaken, hsublist, hremaining⟩ := Comment.exists_remaining hsplit
      have hleft : c ∈ remaining := by
        by_contra hgone
        obtain ⟨earlier, hmem, ⟨hother, -⟩ | ⟨-, htail⟩⟩ := hremaining c hc hgone
        · rw [hown] at hother
          cases hother
        · have hserved : earlier ∈ Comment.serve index comments places :=
            hsplit ▸ mem_append_left _ hmem
          exact hearlier earlier hmem (Comment.tail_of_mem_serve hserved htail).2
      obtain ⟨hline, hstart⟩ := of_decide_eq_true hat
      rw [htaken]
      exact Comment.tailAt?_eq_some (hcomments.sublist hsublist) hleft hown hline hstart

/-! ## The order of service -/

/-- Whether a place is served before another one or starts where this does. -/
def Span.startsFirst (place place' : Span) : Bool := place.start ≤ place'.start

namespace Comment

/-- Every place with what is taken there, in the order of the list. -/
def attachedAt
    (index : LineIndex) (comments : List Comment) (places : List Span) : List (Span × Taken) :=
  putBack (ranks Span.startsFirst places)
    (serve index comments (places.mergeSort Span.startsFirst))

variable (index : LineIndex) (comments : List Comment)

theorem map_fst_attachedAt (places : List Span) :
    (attachedAt index comments places).map (·.1) = places :=
  (putBack_ranks (map_fst_serve _ _ _)).1

theorem mergeSort_attachedAt (places : List Span) :
    (attachedAt index comments places).mergeSort (fun a b => a.1.startsFirst b.1) =
      serve index comments (places.mergeSort Span.startsFirst) :=
  (putBack_ranks (map_fst_serve _ _ _)).2

/-- Where the list is in the order of the text, it is the order of service. -/
theorem attachedAt_eq_serve (h : places.Pairwise fun a b => a.startsFirst b) :
    attachedAt index comments places = serve index comments places := by
  have hsorted : (attachedAt index comments places).Pairwise fun a b => a.1.startsFirst b.1 := by
    rw [← map_fst_attachedAt index comments places] at h
    exact pairwise_map.1 h
  rw [← mergeSort_of_pairwise hsorted, mergeSort_attachedAt, mergeSort_of_pairwise h]

theorem map_doc_attachedAt (places : List Span) :
    ((distribute index comments ((places.zipIdx.map fun (place, rank) =>
      (rank, place.start)).mergeSort (·.2 ≤ ·.2))).mergeSort (·.1 ≤ ·.1)).map (·.2) =
      (attachedAt index comments places).map (·.2.doc) := by
  let sorted := places.zipIdx.mergeSort fun a b => Span.startsFirst a.1 b.1
  have hsorted : (places.zipIdx.map fun (place, rank) => (rank, place.start)).mergeSort
      (·.2 ≤ ·.2) = (sorted.map Prod.swap).map fun entry => (entry.1, entry.2.start) := by
    have hmap : sorted.map (fun entry => (entry.2, entry.1.start)) =
        (places.zipIdx.map fun entry => (entry.2, entry.1.start)).mergeSort (·.2 ≤ ·.2) :=
      map_mergeSort fun _ _ _ _ => rfl
    rw [map_map]
    exact hmap.symm
  have hserved : (sorted.map Prod.swap).map (·.2) = places.mergeSort Span.startsFirst := by
    rw [map_map]
    exact map_fst_mergeSort_zipIdx _ _
  rw [hsorted, distribute_eq, hserved, attachedAt, ← putBack_map, putBack, map_map]
  rfl

end Comment

/-! ## The comments of a schema -/

/-- The declarations, in the order of the schema, with what they take from the comments. -/
def Schema.attachedIn
    (schema : Schema) (source : String) (tokens : List (Located Token)) : List (Span × Taken) :=
  let index := LineIndex.ofText source
  Comment.attachedAt index (Comment.collect index false tokens) (schema.documented.map (·.1))

namespace Schema

theorem map_fst_attachedIn (schema : Schema) (source : String) (tokens : List (Located Token)) :
    (schema.attachedIn source tokens).map (·.1) = schema.documented.map (·.1) :=
  Comment.map_fst_attachedAt _ _ _

theorem documented_attachComments
    (schema : Schema) (source : String) (tokens : List (Located Token)) :
    (schema.attachComments source tokens).documented =
      (schema.attachedIn source tokens).map fun node => (node.1, node.2.doc) := by
  have hplaces := schema.map_fst_attachedIn source tokens
  have hdocs : schema.attachComments source tokens =
      schema.withDocs ((schema.attachedIn source tokens).map (·.2.doc)) := by
    unfold attachComments attachedIn
    rw [← Comment.map_doc_attachedAt, documentedAt_eq]
  rw [hdocs, documented_withDocs_eq, ← hplaces, zip_map']
  rw [length_map, ← length_map (·.1), hplaces, length_map]

theorem attached_attachedIn
    {source : String} {tokens : List (Located Token)} (schema : Schema)
    (h : Lexer.tokenize source.toList = .ok tokens) :
    Attached (fun offset => LineIndex.lineFeedsBelow source offset + 1) (·.IsOf source)
      ((schema.attachedIn source tokens).mergeSort fun a b => a.1.startsFirst b.1) := by
  have hattached := attached_serve (.ofText source)
    (Comment.pairwise_line_collect (Lexer.covered_of_tokenize h) rfl false)
    ((schema.documented.map (·.1)).mergeSort Span.startsFirst)
  have hline : (LineIndex.ofText source).line = fun offset =>
      LineIndex.lineFeedsBelow source offset + 1 := funext (LineIndex.line_eq source)
  have hcomments : (· ∈ Comment.collect (.ofText source) false tokens) = (·.IsOf source) :=
    funext fun c => propext (Comment.mem_collect_iff h)
  rw [attachedIn, Comment.mergeSort_attachedAt, ← hline, ← hcomments]
  exact hattached

end Schema

end Idl
