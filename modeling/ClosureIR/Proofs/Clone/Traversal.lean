import ClosureIR.Proofs.Clone.Copy

/-!
# Copying, position by position

Copying succeeds with a copy, or it stops at a name that was not prepared or in
a closure that cannot be cloned.  What cloning a nested closure does to the
program is a parameter, and so copying does no more than that.
-/

namespace ClosureIR

open BuildM

def Mention.unprepared : Mention → Misuse
  | .label l => .labelNotPrepared l
  | .temp t => .temporaryNotPrepared t

namespace Renaming

def covers (r : Renaming) : Mention → Bool
  | .label l => r.labels.contains l
  | .temp t => r.vars.contains (.ofTemp t)

structure Agrees (r : Renaming) (m : NameMap) : Prop where
  label : ∀ l renamed, r.renameLabel l = .ok renamed → renamed = m.label l
  var : ∀ v renamed, r.renameVariable v = .ok renamed → renamed = m.var v

def Stops (r : Renaming) (bad : ScopeId → Fault → Prop) (closures : List ScopeId)
    (mentions : List Mention) (fault : Fault) : Prop :=
  (∃ x ∈ closures, bad x fault) ∨
    ∃ n ∈ mentions, r.covers n = false ∧ fault = .misused n.unprepared

variable {r : Renaming}

theorem Stops.mono {bad : ScopeId → Fault → Prop} {closures closures' : List ScopeId}
    {mentions mentions' : List Mention} {fault : Fault}
    (stops : r.Stops bad closures mentions fault) (more : closures ⊆ closures')
    (named : mentions ⊆ mentions') : r.Stops bad closures' mentions' fault :=
  stops.imp (fun ⟨x, member, stuck⟩ => ⟨x, more member, stuck⟩)
    fun ⟨n, member, unknown⟩ => ⟨n, named member, unknown⟩

theorem unknown_of_renameLabel {l : Label} {m : Misuse} (failed : r.renameLabel l = .error m) :
    r.covers (.label l) = false ∧ m = Mention.unprepared (.label l) := by
  unfold renameLabel at failed
  split at failed
  · cases failed
  · rename_i missing
    cases failed
    rw [label?] at missing
    exact ⟨by simp [covers, Dict.contains, missing], rfl⟩

theorem unknown_of_renameVariable {v : Variable} {m : Misuse}
    (failed : r.renameVariable v = .error m) :
    ∃ t, v = .ofTemp t ∧ r.covers (.temp t) = false ∧ m = Mention.unprepared (.temp t) := by
  unfold renameVariable at failed
  split at failed
  · cases failed
  · rename_i missing
    split at failed
    · cases failed
    · rename_i t
      cases failed
      exact ⟨t, rfl, by simp [covers, Dict.contains, missing], rfl⟩

end Renaming

namespace BuildM

variable {α β : Type} {Step : Program → Program → Prop}

/-- The operation takes a step, whatever its outcome, and succeeds or fails as said. -/
def Leads (Step : Program → Program → Prop) (op : BuildM α) (p : Program)
    (good : α → Program → Prop) (bad : Fault → Program → Prop) : Prop :=
  op.Yields p (fun a q => Step p q ∧ good a q) fun fault q => Step p q ∧ bad fault q

theorem Leads.bind {op : BuildM α} {next : α → BuildM β} {p : Program}
    {good : α → Program → Prop} {good' : β → Program → Prop} {bad bad' : Fault → Program → Prop}
    (trans : ∀ {p q t}, Step p q → Step q t → Step p t) (first : op.Leads Step p good bad)
    (weaker : ∀ fault q, bad fault q → bad' fault q)
    (others : ∀ a q, Step p q → good a q → (next a).Leads Step q good' bad') :
    (op >>= next).Leads Step p good' bad' := by
  refine yields_bind.2 (first.mono (fun a q done => ?_) fun fault q done => ?_)
  · exact (others a q done.1 done.2).mono (fun _ _ more => ⟨trans done.1 more.1, more.2⟩)
      fun _ _ more => ⟨trans done.1 more.1, more.2⟩
  · exact ⟨done.1, weaker fault q done.2⟩

end BuildM

namespace Program

/-- The scopes `cs` were added between `p` and `q`, in the order in which they are listed. -/
structure Spans (p q : Program) (cs : List ScopeId) : Prop where
  sorted : cs.Pairwise fun c d => c.index < d.index
  since : ∀ c ∈ cs, p.scopes.size ≤ c.index
  before : ∀ c ∈ cs, c.index < q.scopes.size

namespace Spans

variable {p q t : Program} {cs ds : List ScopeId}

theorem nil : p.Spans q [] := ⟨.nil, by simp, by simp⟩

theorem singleton {c : ScopeId} (since : p.scopes.size ≤ c.index)
    (before : c.index < q.scopes.size) : p.Spans q [c] :=
  ⟨List.pairwise_singleton .., by simpa using since, by simpa using before⟩

theorem widen (earlier : p.scopes.size ≤ q.scopes.size) (spans : q.Spans t cs) : p.Spans t cs :=
  ⟨spans.sorted, fun c member => Nat.le_trans earlier (spans.since c member), spans.before⟩

theorem append (earlier : p.scopes.size ≤ q.scopes.size) (later : q.scopes.size ≤ t.scopes.size)
    (first : p.Spans q cs) (second : q.Spans t ds) : p.Spans t (cs ++ ds) where
  sorted := List.pairwise_append.2 ⟨first.sorted, second.sorted, fun c here d there =>
    Nat.lt_of_lt_of_le (first.before c here) (second.since d there)⟩
  since c member := by
    rcases List.mem_append.1 member with here | there
    · exact first.since c here
    · exact Nat.le_trans earlier (second.since c there)
  before c member := by
    rcases List.mem_append.1 member with here | there
    · exact Nat.lt_of_lt_of_le (first.before c here) later
    · exact second.before c there

theorem nodup (spans : p.Spans q cs) : cs.Nodup := by
  refine spans.sorted.imp fun {c d} smaller same => ?_
  subst same
  exact Nat.lt_irrefl _ smaller

end Spans

end Program

/--
What cloning nested closures does from `base` on: it takes steps, which can be
put in a row and keep what was cloned before; it succeeds with a related clone,
which it has added, or fails with a reason.
-/
structure Nests (nested : ScopeId → BuildM ScopeId) (base : Program)
    (Step : Program → Program → Prop) (Sub : Program → ScopeId → ScopeId → Prop)
    (Bad : Program → ScopeId → Fault → Prop) : Prop where
  refl : ∀ p, Step p p
  trans : ∀ {p q t}, Step p q → Step q t → Step p t
  grows : ∀ {p q}, Step p q → p.scopes.size ≤ q.scopes.size
  keep : ∀ {p q}, Step p q → ∀ x c, Sub p x c → Sub q x c
  run : ∀ p, Step base p → ∀ x,
    (nested x).Leads Step p (fun c q => Sub q x c ∧ p.Spans q [c]) fun fault q => Bad q x fault

section Traversal

variable {nested : ScopeId → BuildM ScopeId} {r : Renaming} {m : NameMap} {base : Program}
variable {Step : Program → Program → Prop} {Sub : Program → ScopeId → ScopeId → Prop}
variable {Bad : Program → ScopeId → Fault → Prop}

/-- Steps of which more is known. -/
theorem Nests.and {Step' : Program → Program → Prop} (nests : Nests nested base Step Sub Bad)
    (refl : ∀ p, Step' p p) (trans : ∀ {p q t}, Step' p q → Step' q t → Step' p t)
    (run : ∀ p, Step base p → ∀ x, (nested x).Yields p (fun _ q => Step' p q) fun _ q => Step' p q) :
    Nests nested base (fun p q => Step p q ∧ Step' p q) Sub Bad where
  refl p := ⟨nests.refl p, refl p⟩
  trans first second := ⟨nests.trans first.1 second.1, trans first.2 second.2⟩
  grows step := nests.grows step.1
  keep step := nests.keep step.1
  run p since x :=
    ((nests.run p since.1 x).and (run p since.1 x)).mono
      (fun _ _ done => ⟨⟨done.1.1, done.2⟩, done.1.2⟩) fun _ _ done => ⟨⟨done.1.1, done.2⟩, done.1.2⟩

theorem Nests.leads_pure {α : Type} (nests : Nests nested base Step Sub Bad) {p : Program}
    {good : α → Program → Prop} {bad : Fault → Program → Prop} {a : α} (holds : good a p) :
    (pure a : BuildM α).Leads Step p good bad :=
  ⟨nests.refl p, holds⟩

theorem Nests.leads_renameLabel (nests : Nests nested base Step Sub Bad) (agrees : r.Agrees m)
    (l : Label) (p : Program) :
    (ofMisuse (r.renameLabel l)).Leads Step p (fun renamed _ => renamed = m.label l)
      fun fault q => r.Stops (Bad q) [] [.label l] fault := by
  refine yields_ofMisuse.2 ⟨fun renamed done => ?_, fun misuse failed => ?_⟩
  · exact ⟨nests.refl p, agrees.label l renamed done⟩
  · obtain ⟨unknown, rfl⟩ := Renaming.unknown_of_renameLabel failed
    exact ⟨nests.refl p, .inr ⟨_, List.mem_singleton_self _, unknown, rfl⟩⟩

theorem Nests.leads_renameVariable (nests : Nests nested base Step Sub Bad) (agrees : r.Agrees m)
    (v : Variable) (p : Program) :
    (ofMisuse (r.renameVariable v)).Leads Step p (fun renamed _ => renamed = m.var v)
      fun fault q => r.Stops (Bad q) [] (Mention.ofVariable? v).toList fault := by
  refine yields_ofMisuse.2 ⟨fun renamed done => ?_, fun misuse failed => ?_⟩
  · exact ⟨nests.refl p, agrees.var v renamed done⟩
  · obtain ⟨t, rfl, unknown, rfl⟩ := Renaming.unknown_of_renameVariable failed
    exact ⟨nests.refl p, .inr ⟨_, List.mem_singleton_self _, unknown, rfl⟩⟩

namespace Operand

mutual

theorem renamed_leads (nests : Nests nested base Step Sub Bad) (agrees : r.Agrees m) :
    ∀ (o : Operand) (p : Program), Step base p →
      (o.renamed nested r).Leads Step p
        (fun o' q => o.Copied m (Sub q) o' ∧ p.Spans q o'.closures)
        fun fault q => r.Stops (Bad q) o.closures o.mentions fault := by
  intro o p since
  cases o with
  | nil => exact nests.leads_pure ⟨.nil, .nil⟩
  | boolean b => exact nests.leads_pure ⟨.boolean b, .nil⟩
  | fixnum n => exact nests.leads_pure ⟨.fixnum n, .nil⟩
  | string s => exact nests.leads_pure ⟨.string s, .nil⟩
  | symbol s => exact nests.leads_pure ⟨.symbol s, .nil⟩
  | self => exact nests.leads_pure ⟨.self, .nil⟩
  | var v =>
    refine (nests.leads_renameVariable agrees v p).bind nests.trans (fun _ _ stops => ?_)
      fun renamed q _ same => nests.leads_pure ⟨same ▸ .var v, .nil⟩
    exact stops.mono (List.nil_subset _) (by cases v <;> exact List.Subset.refl _)
  | label l =>
    exact (nests.leads_renameLabel agrees l p).bind nests.trans
      (fun _ _ stops => stops.mono (List.nil_subset _) (List.Subset.refl _))
      fun renamed q _ same => nests.leads_pure ⟨same ▸ .label l, .nil⟩
  | splat inner =>
    refine (renamed_leads nests agrees inner p since).bind nests.trans (fun _ _ stops => ?_)
      fun _ _ _ ⟨copied, spans⟩ => nests.leads_pure ⟨.splat copied, by simpa using spans⟩
    exact stops.mono (by simp) (by simp)
  | array elements =>
    refine (renamedAll_leads nests agrees elements p since).bind nests.trans (fun _ _ stops => ?_)
      fun _ _ _ ⟨copied, spans⟩ => nests.leads_pure ⟨.array copied, by simpa using spans⟩
    exact stops.mono (by simp) (by simp)
  | closure id =>
    exact (nests.run p since id).bind nests.trans (fun _ _ stuck => .inl ⟨id, by simp, stuck⟩)
      fun _ _ _ ⟨related, spans⟩ => nests.leads_pure ⟨.closure related, spans⟩

theorem renamedAll_leads (nests : Nests nested base Step Sub Bad) (agrees : r.Agrees m) :
    ∀ (os : List Operand) (p : Program), Step base p →
      (renamedAll nested r os).Leads Step p
        (fun os' q => AllCopied m (Sub q) os os' ∧ p.Spans q (os'.flatMap (·.closures)))
        fun fault q =>
          r.Stops (Bad q) (os.flatMap (·.closures)) (os.flatMap (·.mentions)) fault := by
  intro os p since
  cases os with
  | nil => exact nests.leads_pure ⟨.nil, .nil⟩
  | cons o rest =>
    refine (renamed_leads nests agrees o p since).bind nests.trans
      (fun _ _ stops => stops.mono (by simp) (by simp)) fun o' q here ⟨first, spans⟩ => ?_
    refine (renamedAll_leads nests agrees rest q (nests.trans since here)).bind nests.trans
      (fun _ _ stops => stops.mono (by simp) (by simp)) fun rest' t later ⟨others, more⟩ => ?_
    exact nests.leads_pure ⟨.cons (first.mono (nests.keep later)) others,
      spans.append (nests.grows here) (nests.grows later) more⟩

end

theorem renamedOption_leads (nests : Nests nested base Step Sub Bad) (agrees : r.Agrees m)
    (o : Option Operand) (p : Program) (since : Step base p) :
    (renamedOption nested r o).Leads Step p
      (fun o' q => Option.Rel (Operand.Copied m (Sub q)) o o' ∧
        p.Spans q (o'.toList.flatMap (·.closures)))
      fun fault q =>
        r.Stops (Bad q) (o.toList.flatMap (·.closures)) (o.toList.flatMap (·.mentions)) fault := by
  cases o with
  | none => exact nests.leads_pure ⟨.none, .nil⟩
  | some o =>
    exact (renamed_leads nests agrees o p since).bind nests.trans
      (fun _ _ stops => stops.mono (by simp) (by simp))
      fun _ _ _ ⟨copied, spans⟩ => nests.leads_pure ⟨.some copied, by simpa using spans⟩

end Operand

namespace Instr

variable {bad : ScopeId → Fault → Prop} {i : Instr} {fault : Fault}

theorem stops_of_result {v : Variable} (stops : r.Stops bad [] (Mention.ofVariable? v).toList fault)
    (result : i.result? = some v) : r.Stops bad i.closures i.mentions fault := by
  apply stops.mono (List.nil_subset _)
  intro n member
  simp only [mentions, result, List.mem_append]
  refine .inl (.inr ?_)
  cases v with
  | ofLocal v => cases member
  | ofTemp t => exact member

theorem stops_of_label {l : Label} (stops : r.Stops bad [] [.label l] fault)
    (named : l ∈ i.labels) : r.Stops bad i.closures i.mentions fault := by
  apply stops.mono (List.nil_subset _)
  intro n member
  cases List.mem_singleton.1 member
  exact List.mem_append_left _ (List.mem_append_left _ (List.mem_map_of_mem named))

theorem stops_of_operands {os : List Operand}
    (stops : r.Stops bad (os.flatMap (·.closures)) (os.flatMap (·.mentions)) fault)
    (read : os ⊆ i.operands) : r.Stops bad i.closures i.mentions fault := by
  refine stops.mono (fun x member => ?_) fun n member => List.mem_append_right _ ?_
  · obtain ⟨o, inside, here⟩ := List.mem_flatMap.1 member
    exact List.mem_flatMap.2 ⟨o, read inside, here⟩
  · obtain ⟨o, inside, here⟩ := List.mem_flatMap.1 member
    exact List.mem_flatMap.2 ⟨o, read inside, here⟩

theorem stops_of_operand {o : Operand} (stops : r.Stops bad o.closures o.mentions fault)
    (read : o ∈ i.operands) : r.Stops bad i.closures i.mentions fault := by
  have alone : r.Stops bad ([o].flatMap (·.closures)) ([o].flatMap (·.mentions)) fault := by
    simpa using stops
  exact stops_of_operands alone (by simpa using read)

theorem renamedResult_leads (nests : Nests nested base Step Sub Bad) (agrees : r.Agrees m)
    (result : Option Variable) (p : Program) :
    (renamedResult r result).Leads Step p (fun renamed _ => renamed = result.map m.var)
      fun fault q => ∃ v, result = some v ∧
        r.Stops (Bad q) [] (Mention.ofVariable? v).toList fault := by
  cases result with
  | none => exact nests.leads_pure rfl
  | some v =>
    exact (nests.leads_renameVariable agrees v p).bind nests.trans
      (fun _ _ stops => ⟨v, rfl, stops⟩) fun _ _ _ same => nests.leads_pure (same ▸ rfl)

theorem guard_leads (nests : Nests nested base Step Sub Bad) (agrees : r.Agrees m) (g : Guard)
    (p : Program) (since : Step base p) :
    (g.renamed nested r).Leads Step p
      (fun g' q => (guard g).Copied m (Sub q) (guard g') ∧ p.Spans q (guard g').closures)
      fun fault q => r.Stops (Bad q) (guard g).closures (guard g).mentions fault := by
  refine (g.candidate.renamed_leads nests agrees p since).bind nests.trans
    (fun _ _ stops => stops_of_operand stops (by simp [operands])) fun _ q here ⟨read, spans⟩ => ?_
  refine (nests.leads_renameLabel agrees g.failure q).bind nests.trans
    (fun _ _ stops => stops_of_label stops (by simp [labels])) fun _ t later same => ?_
  refine nests.leads_pure ⟨same ▸ .guard g (read.mono (nests.keep later)), ?_⟩
  simpa [closures, operands] using
    spans.append (nests.grows here) (nests.grows later) (.nil (q := t))

theorem renamed_leads (nests : Nests nested base Step Sub Bad) (agrees : r.Agrees m) (i : Instr)
    (p : Program) (since : Step base p) :
    (i.renamed nested r).Leads Step p
      (fun i' q => i.Copied m (Sub q) i' ∧ p.Spans q i'.closures)
      fun fault q => r.Stops (Bad q) i.closures i.mentions fault := by
  cases i with
  | copy result source =>
    refine (nests.leads_renameVariable agrees result p).bind nests.trans
      (fun _ _ stops => stops_of_result stops rfl) fun _ q here same => ?_
    refine (source.renamed_leads nests agrees q (nests.trans since here)).bind nests.trans
      (fun _ _ stops => stops_of_operand stops (by simp [operands])) fun _ _ _ ⟨read, spans⟩ => ?_
    refine nests.leads_pure ⟨same ▸ .copy result read, ?_⟩
    simpa [closures, operands] using spans.widen (nests.grows here)
  | receive result index =>
    exact (nests.leads_renameVariable agrees result p).bind nests.trans
      (fun _ _ stops => stops_of_result stops rfl)
      fun _ _ _ same => nests.leads_pure ⟨same ▸ .receive result index, .nil⟩
  | receiveOpt result index default =>
    refine (nests.leads_renameVariable agrees result p).bind nests.trans
      (fun _ _ stops => stops_of_result stops rfl) fun _ q here same => ?_
    refine (default.renamed_leads nests agrees q (nests.trans since here)).bind nests.trans
      (fun _ _ stops => stops_of_operand stops (by simp [operands])) fun _ _ _ ⟨read, spans⟩ => ?_
    refine nests.leads_pure ⟨same ▸ .receiveOpt result index read, ?_⟩
    simpa [closures, operands] using spans.widen (nests.grows here)
  | receiveRest result index =>
    exact (nests.leads_renameVariable agrees result p).bind nests.trans
      (fun _ _ stops => stops_of_result stops rfl)
      fun _ _ _ same => nests.leads_pure ⟨same ▸ .receiveRest result index, .nil⟩
  | label l =>
    exact (nests.leads_renameLabel agrees l p).bind nests.trans
      (fun _ _ stops => stops_of_label stops (by simp [labels]))
      fun _ _ _ same => nests.leads_pure ⟨same ▸ .label l, .nil⟩
  | jump target =>
    exact (nests.leads_renameLabel agrees target p).bind nests.trans
      (fun _ _ stops => stops_of_label stops (by simp [labels]))
      fun _ _ _ same => nests.leads_pure ⟨same ▸ .jump target, .nil⟩
  | branchFalse condition target =>
    refine (condition.renamed_leads nests agrees p since).bind nests.trans
      (fun _ _ stops => stops_of_operand stops (by simp [operands])) fun _ q here ⟨read, spans⟩ => ?_
    refine (nests.leads_renameLabel agrees target q).bind nests.trans
      (fun _ _ stops => stops_of_label stops (by simp [labels])) fun _ t later same => ?_
    refine nests.leads_pure ⟨same ▸ .branchFalse (read.mono (nests.keep later)) target, ?_⟩
    simpa [closures, operands] using
      spans.append (nests.grows here) (nests.grows later) (.nil (q := t))
  | call result receiver method args closure =>
    refine (renamedResult_leads nests agrees result p).bind nests.trans
      (fun _ _ ⟨v, written, stops⟩ => stops_of_result stops written) fun _ q here same => ?_
    have sinceResult := nests.trans since here
    refine (receiver.renamed_leads nests agrees q sinceResult).bind nests.trans
      (fun _ _ stops => stops_of_operand stops (by simp [operands]))
      fun _ t called_step ⟨called, calledSpans⟩ => ?_
    have sinceReceiver := nests.trans sinceResult called_step
    refine (Operand.renamedAll_leads nests agrees args t sinceReceiver).bind nests.trans
      (fun _ _ stops => stops_of_operands stops (by simp [operands]))
      fun _ u passed_step ⟨passed, passedSpans⟩ => ?_
    have sinceArgs := nests.trans sinceReceiver passed_step
    refine (Operand.renamedOption_leads nests agrees closure u sinceArgs).bind nests.trans
      (fun _ _ stops => stops_of_operands stops (by simp [operands]))
      fun _ v block_step ⟨block, blockSpans⟩ => ?_
    have rest_step := nests.trans passed_step block_step
    refine nests.leads_pure ⟨?_, ?_⟩
    · rw [same]
      exact .call result method (called.mono (nests.keep rest_step))
        (passed.mono (nests.keep block_step)) block
    · have rest := passedSpans.append (nests.grows passed_step) (nests.grows block_step) blockSpans
      have all := calledSpans.append (nests.grows called_step) (nests.grows rest_step) rest
      simpa [closures, operands] using all.widen (nests.grows here)
  | ret value =>
    refine (value.renamed_leads nests agrees p since).bind nests.trans
      (fun _ _ stops => stops_of_operand stops (by simp [operands])) fun _ _ _ ⟨read, spans⟩ => ?_
    exact nests.leads_pure ⟨.ret read, by simpa [closures, operands] using spans⟩
  | guard g =>
    exact (guard_leads nests agrees g p since).bind nests.trans (fun _ _ stops => stops)
      fun _ _ _ copied => nests.leads_pure copied

theorem renamedAll_leads (nests : Nests nested base Step Sub Bad) (agrees : r.Agrees m)
    (is : List Instr) (p : Program) (since : Step base p) :
    (renamedAll nested r is).Leads Step p
      (fun is' q => List.Forall₂ (Copied m (Sub q)) is is' ∧
        p.Spans q (is'.flatMap (·.closures)))
      fun fault q =>
        r.Stops (Bad q) (is.flatMap (·.closures)) (is.flatMap (·.mentions)) fault := by
  induction is generalizing p with
  | nil => exact nests.leads_pure ⟨.nil, .nil⟩
  | cons i rest ih =>
    refine (i.renamed_leads nests agrees p since).bind nests.trans
      (fun _ _ stops => stops.mono (by simp) (by simp)) fun _ q here ⟨first, spans⟩ => ?_
    refine (ih q (nests.trans since here)).bind nests.trans
      (fun _ _ stops => stops.mono (by simp) (by simp)) fun _ t later ⟨others, more⟩ => ?_
    exact nests.leads_pure ⟨.cons (first.mono (nests.keep later)) others,
      spans.append (nests.grows here) (nests.grows later) more⟩

end Instr

namespace Block

theorem Copied.keep {p q : Program} (nests : Nests nested base Step Sub Bad) (later : Step p q)
    {b b' : Block} (copied : b.Copied m (Sub p) b') : b.Copied m (Sub q) b' :=
  ⟨copied.id, copied.label, copied.instrs.imp fun _ _ here => here.mono (nests.keep later)⟩

theorem renamed_leads (nests : Nests nested base Step Sub Bad) (agrees : r.Agrees m) (b : Block)
    (p : Program) (since : Step base p) :
    (b.renamed nested r).Leads Step p
      (fun b' q => b.Copied m (Sub q) b' ∧ p.Spans q b'.closures)
      fun fault q => r.Stops (Bad q) b.closures b.mentions fault := by
  refine (Instr.renamedAll_leads nests agrees b.instrs p since).bind nests.trans
    (fun _ _ stops => stops.mono (List.Subset.refl _) (List.subset_cons_self _ _))
    fun _ q here ⟨instrs, spans⟩ => ?_
  refine (nests.leads_renameLabel agrees b.label q).bind nests.trans
    (fun _ _ stops => stops.mono (List.nil_subset _) (by simp [mentions])) fun _ t later same => ?_
  refine nests.leads_pure
    ⟨⟨rfl, same, instrs.imp fun _ _ here => here.mono (nests.keep later)⟩, ?_⟩
  simpa [closures] using spans.append (nests.grows here) (nests.grows later) (.nil (q := t))

theorem renamedAll_leads (nests : Nests nested base Step Sub Bad) (agrees : r.Agrees m)
    (bs : List Block) (p : Program) (since : Step base p) :
    (renamedAll nested r bs).Leads Step p
      (fun bs' q => List.Forall₂ (Copied m (Sub q)) bs bs' ∧
        p.Spans q (bs'.flatMap (·.closures)))
      fun fault q =>
        r.Stops (Bad q) (bs.flatMap (·.closures)) (bs.flatMap (·.mentions)) fault := by
  induction bs generalizing p with
  | nil => exact nests.leads_pure ⟨.nil, .nil⟩
  | cons b rest ih =>
    refine (b.renamed_leads nests agrees p since).bind nests.trans
      (fun _ _ stops => stops.mono (by simp) (by simp)) fun _ q here ⟨first, spans⟩ => ?_
    refine (ih q (nests.trans since here)).bind nests.trans
      (fun _ _ stops => stops.mono (by simp) (by simp)) fun _ t later ⟨others, more⟩ => ?_
    exact nests.leads_pure ⟨.cons (first.keep nests later) others,
      spans.append (nests.grows here) (nests.grows later) more⟩

end Block

/-- A graph is copied in full, or copying stops in one of its closures or at one of its names. -/
theorem Graph.renamed_leads (nests : Nests nested base Step Sub Bad) (agrees : r.Agrees m)
    (owner : ScopeId) (g : Graph) (p : Program) (since : Step base p) :
    (g.renamed nested r owner).Leads Step p
      (fun g' q => g.Copied m (Sub q) owner g' ∧ p.Spans q g'.closures)
      fun fault q => r.Stops (Bad q) g.closures g.mentions fault :=
  (Block.renamedAll_leads nests agrees g.blocks p since).bind nests.trans (fun _ _ stops => stops)
    fun _ _ _ ⟨blocks, spans⟩ => nests.leads_pure ⟨⟨rfl, rfl, rfl, rfl, rfl, blocks⟩, spans⟩

end Traversal

end ClosureIR
