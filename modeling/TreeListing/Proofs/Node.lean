import TreeListing.Node
import TreeListing.Proofs.Extract

/-!
What a node answers while the disk changes. Each question is kept in a log with the disk at that moment, and
all answers are a matter of the log: the first metadata that could be read, and the first hash.
-/
namespace TreeListing

namespace Node

inductive Question where
  | size
  | modified
  | hash
deriving DecidableEq

inductive Answer where
  | size (n : Nat)
  | modified (t : Instant)
  | hash (text : String)
deriving DecidableEq

def ask (n : Node) (d : Disk) : Question → Except ItemError Answer × Node
  | .size => ((n.size d).1.map .size, (n.size d).2)
  | .modified => ((n.modified d).1.map .modified, (n.modified d).2)
  | .hash => ((n.contentHash d).1.map .hash, (n.contentHash d).2)

/-- A question that a node has answered, and the disk at that moment. -/
structure Asked where
  disk : Disk
  question : Question
  answer : Except ItemError Answer

def Asked.hash? (a : Asked) : Option String :=
  match a.answer with
  | .ok (.hash text) => some text
  | _ => none

/-- The metadata at the first question at which they could be read. -/
def snapshot? (i : Item) (log : List Asked) : Option Metadata :=
  log.findSome? fun a => (i.metadata a.disk).toOption

def firstHash? (log : List Asked) : Option String := log.findSome? Asked.hash?

/-- A node with all that was asked of it, or of the node that it is a clone of before it was made. -/
structure Kept where
  node : Node
  log : List Asked

def Kept.ask (k : Kept) (d : Disk) (q : Question) : Kept :=
  ⟨(k.node.ask d q).2, k.log ++ [⟨d, q, (k.node.ask d q).1⟩]⟩

inductive Step where
  | ask (who : Nat) (q : Question)
  | clone (who : Nat)
  | change (d : Disk)

/-- A disk, and nodes that all come from one. -/
structure Session where
  disk : Disk
  kept : List Kept

namespace Session

def start (i : Item) (d : Disk) : Session := ⟨d, [⟨⟨i, none, none⟩, []⟩]⟩

def step (s : Session) : Step → Session
  | .ask who q => { s with kept := s.kept.modify who (·.ask s.disk q) }
  | .clone who => { s with kept := s.kept ++ s.kept[who]?.toList }
  | .change d => { s with disk := d }

def after (i : Item) (d : Disk) (steps : List Step) : Session := steps.foldl step (start i d)

end Session

section
variable {n : Node} {d : Disk} {m : Metadata} {q : Question} {text : String} {e : ItemError}

/-- What is known of the metadata after a question. -/
def known? (n : Node) (d : Disk) : Option Metadata := n.metadata?.or (n.item.metadata d).toOption

theorem metadata_of_known (h : n.known? d = some m) :
    n.metadata d = (.ok m, { n with metadata? := some m }) := by
  obtain ⟨i, metadata?, hash?⟩ := n
  cases metadata? with
  | some known =>
    obtain rfl : known = m := Option.some.inj h
    rfl
  | none =>
    have hread : i.metadata d = .ok m := by
      cases hr : i.metadata d with
      | ok read => simpa [known?, hr, Except.toOption] using h
      | error e => simp [known?, hr, Except.toOption] at h
    simp [metadata, hread]

theorem metadata_of_unknown (h : n.known? d = none) (he : n.item.metadata d = .error e) :
    n.metadata d = (.error e, n) := by
  have hm : n.metadata? = none := (Option.or_eq_none_iff.mp h).1
  simp [metadata, hm, he]

theorem exists_error_of_unknown (h : n.known? d = none) : ∃ e, n.item.metadata d = .error e := by
  cases hr : n.item.metadata d with
  | ok read => simp [known?, hr, Except.toOption] at h
  | error e => exact ⟨e, rfl⟩

theorem ask_size (h : n.known? d = some m) :
    n.ask d .size = (.ok (.size m.size), { n with metadata? := some m }) := by
  simp [ask, size, metadata_of_known h, Except.map]

theorem ask_modified (h : n.known? d = some m) :
    n.ask d .modified = (.ok (.modified m.modified), { n with metadata? := some m }) := by
  simp [ask, modified, metadata_of_known h, Except.map]

theorem ask_hash_again (h : n.hash? = some text) : n.ask d .hash = (.ok (.hash text), n) := by
  simp [ask, contentHash, h, Except.map]

theorem ask_hash (hn : n.hash? = none) (h : n.known? d = some m) (ht : n.item.hashOf d m = .ok text) :
    n.ask d .hash = (.ok (.hash text), ⟨n.item, some m, some text⟩) := by
  simp [ask, contentHash, hn, metadata_of_known h, ht, Except.map]

/-- The metadata stay though the content cannot be read. -/
theorem ask_hash_of_error (hn : n.hash? = none) (h : n.known? d = some m)
    (he : n.item.hashOf d m = .error e) : n.ask d .hash = (.error e, ⟨n.item, some m, none⟩) := by
  simp [ask, contentHash, hn, metadata_of_known h, he, Except.map]

theorem ask_of_unknown (hn : n.hash? = none) (h : n.known? d = none) (he : n.item.metadata d = .error e) :
    n.ask d q = (.error e, n) := by
  have hm := metadata_of_unknown h he
  cases q with
  | size => simp [ask, size, hm, Except.map]
  | modified => simp [ask, modified, hm, Except.map]
  | hash => simp [ask, contentHash, hn, hm, Except.map]

end

theorem hashOf_eq_ok {i : Item} {d : Disk} {m : Metadata} {text : String} (h : i.hashOf d m = .ok text) :
    text = "" ↔ m.type ≠ .file := by
  unfold Item.hashOf at h
  split at h
  next hfile =>
    obtain ⟨bytes, -, rfl⟩ := map_eq_ok.mp (mapError_eq_ok.mp h)
    have hne : MetroHash.hexDigest bytes ≠ "" := fun he =>
      (MetroHash.filled_hexDigest bytes).1 (by rw [he]; rfl)
    simp [hne, hfile]
  next hfile =>
    simp [← Except.ok.inj h, hfile]

section
variable {i : Item} {log : List Asked} {a : Asked}

theorem snapshot?_append : snapshot? i (log ++ [a]) = (snapshot? i log).or (i.metadata a.disk).toOption := by
  simp [snapshot?, List.findSome?_append]

theorem firstHash?_append : firstHash? (log ++ [a]) = (firstHash? log).or a.hash? := by
  simp [firstHash?, List.findSome?_append]

end

/-- A hash is known only with the metadata, and is empty for anything but a regular file. -/
def IsCoherent (n : Node) : Prop :=
  ∀ text, n.hash? = some text → ∃ m, n.metadata? = some m ∧ (text = "" ↔ m.type ≠ .file)

/-- A successful answer is the one that the metadata and the hash give. -/
def Asked.AgreesWith (a : Asked) (m? : Option Metadata) (hash? : Option String) : Prop :=
  match a.answer with
  | .ok (.size n) => ∃ m, m? = some m ∧ m.size = n
  | .ok (.modified t) => ∃ m, m? = some m ∧ m.modified = t
  | .ok (.hash text) => hash? = some text
  | .error _ => True

theorem IsCoherent.hash?_eq_none {n : Node} (hn : n.IsCoherent) {d : Disk} (h : n.known? d = none) :
    n.hash? = none := by
  rw [Option.eq_none_iff_forall_ne_some]
  intro text ht
  obtain ⟨m, hm, -⟩ := hn text ht
  rw [known?, hm] at h
  cases h

theorem IsCoherent.fill {n : Node} (hn : n.IsCoherent) {d : Disk} {m : Metadata} (h : n.known? d = some m) :
    IsCoherent { n with metadata? := some m } := by
  intro text ht
  obtain ⟨m', hm, hempty⟩ := hn text ht
  rw [known?, hm] at h
  exact ⟨m', h.symm ▸ rfl, hempty⟩

/-- What was not known is filled by a question, and the answer comes from what is known then. -/
theorem ask_spec {n : Node} (hn : n.IsCoherent) (d : Disk) (q : Question) :
    let a : Asked := ⟨d, q, (n.ask d q).1⟩
    (n.ask d q).2 = ⟨n.item, n.known? d, n.hash?.or a.hash?⟩ ∧
      a.AgreesWith (n.known? d) (n.hash?.or a.hash?) ∧ (n.ask d q).2.IsCoherent := by
  cases hk : n.known? d with
  | none =>
    have hm : n.metadata? = none := (Option.or_eq_none_iff.mp hk).1
    have hh : n.hash? = none := hn.hash?_eq_none hk
    obtain ⟨e, he⟩ := exists_error_of_unknown hk
    rw [ask_of_unknown hh hk he]
    refine ⟨?_, trivial, hn⟩
    obtain ⟨i, metadata?, hash?⟩ := n
    obtain rfl : metadata? = none := hm
    obtain rfl : hash? = none := hh
    rfl
  | some m =>
    have hfill := hn.fill hk
    cases q with
    | size =>
      rw [ask_size hk]
      exact ⟨by simp [Asked.hash?], ⟨m, rfl, rfl⟩, hfill⟩
    | modified =>
      rw [ask_modified hk]
      exact ⟨by simp [Asked.hash?], ⟨m, rfl, rfl⟩, hfill⟩
    | hash =>
      cases hh : n.hash? with
      | some text =>
        -- the metadata are not asked for here, but they were kept before the hash was
        rw [ask_hash_again hh]
        obtain ⟨m', hm, -⟩ := hn text hh
        have hmm : n.metadata? = some m := by
          rw [known?, hm] at hk
          rw [hm, ← hk]
          rfl
        refine ⟨?_, rfl, hn⟩
        rw [← hmm, Option.some_or, ← hh]
      | none =>
        cases ht : n.item.hashOf d m with
        | ok text =>
          rw [ask_hash hh hk ht]
          exact ⟨rfl, rfl, fun other ho => ⟨m, rfl, Option.some.inj ho ▸ hashOf_eq_ok ht⟩⟩
        | error e =>
          rw [ask_hash_of_error hh hk ht]
          exact ⟨rfl, trivial, fun other ho => nomatch ho⟩

theorem Asked.AgreesWith.or {a : Asked} {m? m?' : Option Metadata} {hash? hash?' : Option String}
    (h : a.AgreesWith m? hash?) : a.AgreesWith (m?.or m?') (hash?.or hash?') := by
  obtain ⟨d, q, answer⟩ := a
  match answer with
  | .ok (.size n) =>
    obtain ⟨m, rfl, hm⟩ := h
    exact ⟨m, rfl, hm⟩
  | .ok (.modified t) =>
    obtain ⟨m, rfl, hm⟩ := h
    exact ⟨m, rfl, hm⟩
  | .ok (.hash text) =>
    obtain rfl : hash? = some text := h
    rfl
  | .error e => trivial

/-- Everything that the node knows and has answered is a matter of its log. -/
structure Kept.FromLog (i : Item) (k : Kept) : Prop where
  node : k.node = ⟨i, snapshot? i k.log, firstHash? k.log⟩
  answers : ∀ a ∈ k.log, a.AgreesWith (snapshot? i k.log) (firstHash? k.log)
  coherent : k.node.IsCoherent

theorem Kept.FromLog.ask {i : Item} {k : Kept} (h : k.FromLog i) (d : Disk) (q : Question) :
    (k.ask d q).FromLog i := by
  obtain ⟨hnode, hagrees, hcoherent⟩ := ask_spec h.coherent d q
  have hsnapshot : snapshot? i (k.ask d q).log = k.node.known? d := by
    rw [Kept.ask, snapshot?_append, h.node]
    rfl
  have hfirst : firstHash? (k.ask d q).log = k.node.hash?.or (Asked.hash? ⟨d, q, (k.node.ask d q).1⟩) := by
    rw [Kept.ask, firstHash?_append, h.node]
  have hitem : k.node.item = i := by rw [h.node]
  refine ⟨?_, ?_, hcoherent⟩
  · rw [hsnapshot, hfirst, ← hitem]
    exact hnode
  · intro a ha
    rw [hsnapshot, hfirst]
    rcases List.mem_append.mp ha with hold | hnew
    · have hbefore := h.answers a hold
      rw [known?, h.node]
      exact hbefore.or
    · rw [List.mem_singleton.mp hnew]
      exact hagrees

namespace Session

variable {i : Item} {s : Session}

theorem fromLog_step (h : ∀ k ∈ s.kept, k.FromLog i) (t : Step) : ∀ k ∈ (s.step t).kept, k.FromLog i := by
  intro k hk
  cases t with
  | ask who q =>
    obtain ⟨j, hj⟩ := List.mem_iff_getElem?.mp hk
    rw [step, List.getElem?_modify] at hj
    obtain ⟨k', hk', rfl⟩ := Option.map_eq_some_iff.mp hj
    have hkept := h k' (List.mem_of_getElem? hk')
    split
    · exact hkept.ask s.disk q
    · exact hkept
  | clone who =>
    rcases List.mem_append.mp hk with hk | hk
    · exact h k hk
    · exact h k (List.mem_of_getElem? (Option.mem_toList.mp hk))
  | change d => exact h k hk

theorem fromLog_foldl (h : ∀ k ∈ s.kept, k.FromLog i) (steps : List Step) :
    ∀ k ∈ (steps.foldl step s).kept, k.FromLog i := by
  induction steps generalizing s with
  | nil => exact h
  | cons t steps ih => exact ih (fromLog_step h t)

theorem fromLog_after (i : Item) (d : Disk) (steps : List Step) :
    ∀ k ∈ (after i d steps).kept, k.FromLog i := by
  apply fromLog_foldl
  intro k hk
  rw [List.mem_singleton.mp hk]
  exact ⟨rfl, fun a ha => (nomatch ha), fun text ht => (nomatch ht)⟩

theorem kept_clone {who : Nat} {k : Kept} (h : s.kept[who]? = some k) :
    (s.step (.clone who)).kept = s.kept ++ [k] := by
  rw [step, h]
  rfl

theorem getElem?_ask {who other : Nat} (h : who ≠ other) (q : Question) :
    (s.step (.ask who q)).kept[other]? = s.kept[other]? := by
  exact List.getElem?_modify_ne _ _ h

end Session

/-- The node answers from the first metadata that could be read at a question, and from the first hash. -/
structure Kept.AnswersFromSnapshot (i : Item) (k : Kept) : Prop where
  known : k.node = ⟨i, snapshot? i k.log, firstHash? k.log⟩
  size : ∀ a ∈ k.log, ∀ n, a.answer = .ok (.size n) → ∃ m, snapshot? i k.log = some m ∧ m.size = n
  modified : ∀ a ∈ k.log, ∀ t, a.answer = .ok (.modified t) → ∃ m, snapshot? i k.log = some m ∧ m.modified = t
  hash : ∀ a ∈ k.log, ∀ text, a.answer = .ok (.hash text) →
    firstHash? k.log = some text ∧ ∃ m, snapshot? i k.log = some m ∧ (text = "" ↔ m.type ≠ .file)
  /-- Metadata that cannot be read leave nothing behind. -/
  unread : snapshot? i k.log = none → ∀ d e, i.metadata d = .error e →
    ∀ q, k.node.ask d q = (.error e, k.node)
  /-- They can still be read later on. -/
  read : snapshot? i k.log = none → ∀ d m, i.metadata d = .ok m →
    k.node.ask d .size = (.ok (.size m.size), ⟨i, some m, none⟩) ∧
      k.node.ask d .modified = (.ok (.modified m.modified), ⟨i, some m, none⟩) ∧
      ∀ text, i.hashOf d m = .ok text → k.node.ask d .hash = (.ok (.hash text), ⟨i, some m, some text⟩)
  /-- Content that cannot be read leaves the metadata behind. -/
  unhashed : firstHash? k.log = none → ∀ d m e, (snapshot? i k.log).or (i.metadata d).toOption = some m →
    i.hashOf d m = .error e → k.node.ask d .hash = (.error e, ⟨i, some m, none⟩)

theorem Kept.FromLog.answersFromSnapshot {i : Item} {k : Kept} (h : k.FromLog i) :
    k.AnswersFromSnapshot i := by
  have hitem : k.node.item = i := by rw [h.node]
  have hmetadata : k.node.metadata? = snapshot? i k.log := by rw [h.node]
  have hhash : k.node.hash? = firstHash? k.log := by rw [h.node]
  have hknown : ∀ d, k.node.known? d = (snapshot? i k.log).or (i.metadata d).toOption := by
    intro d
    rw [known?, hmetadata, hitem]
  have hunhashed : snapshot? i k.log = none → k.node.hash? = none := by
    intro hs
    rw [Option.eq_none_iff_forall_ne_some]
    intro text ht
    obtain ⟨m, hm, -⟩ := h.coherent text ht
    rw [hmetadata, hs] at hm
    cases hm
  refine ⟨h.node, ?_, ?_, ?_, ?_, ?_, ?_⟩
  · intro a ha n hn
    have hagrees := h.answers a ha
    rwa [Asked.AgreesWith, hn] at hagrees
  · intro a ha t ht
    have hagrees := h.answers a ha
    rwa [Asked.AgreesWith, ht] at hagrees
  · intro a ha text ht
    have hagrees := h.answers a ha
    rw [Asked.AgreesWith, ht] at hagrees
    rw [← hmetadata]
    exact ⟨hagrees, h.coherent text (hhash.trans hagrees)⟩
  · intro hs d e he q
    apply ask_of_unknown (hunhashed hs)
    · rw [hknown, hs, he]
      rfl
    · rw [hitem, he]
  · intro hs d m hm
    have hk : k.node.known? d = some m := by
      rw [hknown, hs, hm]
      rfl
    rw [ask_size hk, ask_modified hk, hunhashed hs, hitem]
    refine ⟨rfl, rfl, ?_⟩
    intro text ht
    rw [ask_hash (hunhashed hs) hk (hitem.symm ▸ ht), hitem]
  · intro hf d m e hm he
    rw [ask_hash_of_error (hhash.trans hf) ((hknown d).trans hm) (hitem.symm ▸ he), hitem]

/-- However the disk changes between the questions, each node answers from one snapshot. A clone begins with
what is known by then, and from there on a question to one node is nothing to the others. -/
theorem answers_from_one_snapshot (i : Item) (d : Disk) (steps : List Step) :
    (∀ k ∈ (Session.after i d steps).kept, k.AnswersFromSnapshot i) ∧
    (∀ who k, (Session.after i d steps).kept[who]? = some k →
      (Session.after i d (steps ++ [.clone who])).kept = (Session.after i d steps).kept ++ [k]) ∧
    ∀ who other q, who ≠ other →
      (Session.after i d (steps ++ [.ask who q])).kept[other]? = (Session.after i d steps).kept[other]? := by
  refine ⟨?_, ?_, ?_⟩
  · intro k hk
    exact (Session.fromLog_after i d steps k hk).answersFromSnapshot
  · intro who k hk
    rw [Session.after, List.foldl_concat]
    exact Session.kept_clone hk
  · intro who other q hne
    rw [Session.after, List.foldl_concat]
    exact Session.getElem?_ask hne q

/-- A disk where everything has the same metadata, and content if it is given. -/
def uniform (stat : Except SystemError Metadata) (content? : Option (List UInt8)) : Disk where
  cwd := ⟨"/"⟩
  stat := fun _ => stat
  names := fun _ => .error .notADirectory
  content := fun _ => match content? with
    | some bytes => .ok bytes
    | none => .error .other
  canonical? := fun _ => none

/-- A file that appears without its content, is written to, and then asked for its hash through a clone. -/
def growingFile : Session :=
  .after (.root ⟨"/f"⟩) (uniform (.error .notFound) none)
    [.ask 0 .size, .change (uniform (.ok ⟨.file, 3, ⟨0, 0⟩, ⟨0, 0⟩⟩) none), .ask 0 .hash,
      .change (uniform (.ok ⟨.file, 14, ⟨1, 0⟩, ⟨1, 0⟩⟩) (some [])), .clone 0, .ask 1 .size, .ask 1 .hash]

theorem answers_from_one_snapshot_growingFile : ∃ k ∈ growingFile.kept, k.AnswersFromSnapshot (.root ⟨"/f"⟩) ∧
    k.log.map (·.answer) = [.error (.stat ⟨"/f"⟩ .notFound), .error (.hash ⟨"/f"⟩ .other), .ok (.size 3),
      .ok (.hash (MetroHash.hexDigest []))] := by
  obtain ⟨k, hk, hlog⟩ : ∃ k ∈ growingFile.kept, k.log.map (·.answer) = [.error (.stat ⟨"/f"⟩ .notFound),
      .error (.hash ⟨"/f"⟩ .other), .ok (.size 3), .ok (.hash (MetroHash.hexDigest []))] := by
    decide +kernel
  exact ⟨k, hk, (answers_from_one_snapshot _ _ _).1 k hk, hlog⟩

end Node

end TreeListing
