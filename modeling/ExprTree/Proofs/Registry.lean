import Mathlib.Data.List.Nodup
import ExprTree.Library.Standard

/-!
# What a library remembers

A library is changed by two calls only: one that registers a template, and one that stocks it with the
standard operators, which is a row of registrations that ends at the first refusal. The *log* of a
sequence of calls has an entry for every single registration in it, with its answer.

**A library is what the accepted entries of its log say, in their order**
(`Library.templates_performAll`), and which entries are accepted is decided by the entries before them
(`Library.answered_history`): the first template of an identifier is accepted and stays, all later
ones are refused. `Library.Reflects` collects what follows for the look-ups.
-/

set_option autoImplicit false

namespace ExprTree.Library

/-! ## Calls and their log -/

inductive Call where
  | register (t : Tree)
  | stock

/-- The library after a call, with the complaint of the call if there is one. A template that is
    refused leaves the library as it was. -/
def perform (lib : Library) : Call → Library × Option Fault
  | .register t =>
    match lib.register t with
    | .ok lib' => (lib', none)
    | .error e => (lib, some e)
  | .stock => lib.stock

def performAll (lib : Library) (calls : List Call) : Library :=
  calls.foldl (fun lib call => (lib.perform call).1) lib

/-- Single registrations in order, each with the complaint it was answered with, if any. -/
abbrev Log := List (Tree × Option Fault)

def Log.accepted (log : Log) : List Tree :=
  (log.filter fun entry => entry.2.isNone).map Prod.fst

/-- The registrations made of a row of templates, up to the first that is refused. -/
def registrations (lib : Library) : List Tree → Log
  | [] => []
  | t :: ts =>
    match lib.register t with
    | .ok lib' => (t, none) :: lib'.registrations ts
    | .error e => [(t, some e)]

/-- The templates that a call would register, in order. -/
def Call.templates : Call → List Tree
  | register t => [t]
  | stock => standardTemplates

/-- The log of a sequence of calls. -/
def history (lib : Library) : List Call → Log
  | [] => []
  | call :: calls => lib.registrations call.templates ++ (lib.perform call).1.history calls

@[simp] theorem Log.accepted_append (log log' : Log) :
    Log.accepted (log ++ log') = log.accepted ++ log'.accepted := by
  simp [accepted]

/-! ## One registration -/

section

variable {lib lib' : Library} {t : Tree} {e : Fault}

/-- The complaint about a template where these identifiers are present. -/
def refusal (present : List String) (t : Tree) : Option Fault :=
  if t.identifier ∈ present then some (.duplicateName t.identifier) else none

theorem register_of_mem (h : t.identifier ∈ lib.identifiers) :
    lib.register t = .error (.duplicateName t.identifier) := by
  rw [register, dif_pos h]

theorem templates_of_register (h : lib.register t = .ok lib') :
    lib'.templates = lib.templates ++ [t] ∧ t.identifier ∉ lib.identifiers := by
  rw [register] at h
  split at h
  · exact absurd h (by simp)
  · next hne =>
    cases h
    exact ⟨rfl, hne⟩

theorem refusal_of_register_ok (h : lib.register t = .ok lib') :
    refusal lib.identifiers t = none :=
  if_neg (templates_of_register h).2

theorem refusal_of_register_error (h : lib.register t = .error e) :
    refusal lib.identifiers t = some e := by
  rw [register] at h
  split at h
  · next hm =>
    cases h
    exact if_pos hm
  · exact absurd h (by simp)

end

/-! ## Runs of registrations -/

/-- A single registration is a row of one. -/
theorem perform_eq (lib : Library) (call : Call) : lib.perform call = lib.registerEach call.templates := by
  cases call with
  | register t =>
    rw [perform, Call.templates, registerEach]
    cases lib.register t with
    | ok lib' => rfl
    | error e => rfl
  | stock => rfl

theorem templates_registerEach (lib : Library) (ts : List Tree) :
    (lib.registerEach ts).1.templates = lib.templates ++ (lib.registrations ts).accepted := by
  induction ts generalizing lib with
  | nil => exact (List.append_nil _).symm
  | cons t ts ih =>
    rw [registerEach, registrations]
    cases h : lib.register t with
    | ok lib' =>
      show (lib'.registerEach ts).1.templates = lib.templates ++ t :: (lib'.registrations ts).accepted
      rw [ih, (templates_of_register h).1, List.append_assoc, List.singleton_append]
    | error e => exact (List.append_nil _).symm

theorem templates_perform (lib : Library) (call : Call) :
    (lib.perform call).1.templates =
      lib.templates ++ (lib.registrations call.templates).accepted := by
  rw [perform_eq, templates_registerEach]

/-- **A library gains what its log accepts**, at the end and in that order. -/
theorem templates_performAll (lib : Library) (calls : List Call) :
    (lib.performAll calls).templates = lib.templates ++ (lib.history calls).accepted := by
  induction calls generalizing lib with
  | nil => exact (List.append_nil _).symm
  | cons call calls ih =>
    show ((lib.perform call).1.performAll calls).templates = _
    rw [ih, templates_perform, history, Log.accepted_append, List.append_assoc]

theorem identifiers_append {lib lib' : Library} {ts : List Tree}
    (h : lib'.templates = lib.templates ++ ts) :
    lib'.identifiers = lib.identifiers ++ ts.map Tree.identifier := by
  rw [identifiers, h, List.map_append]
  rfl

/-! ## Which registrations are accepted -/

/-- Each entry has the answer that is due when the identifiers of the templates accepted before it
    are present, beside those of `present`. -/
def Log.Answered (present : List String) : Log → Prop
  | [] => True
  | entry :: log => entry.2 = refusal present entry.1 ∧
      Answered (present ++ (accepted [entry]).map Tree.identifier) log

theorem Log.answered_append {present : List String} {log log' : Log} :
    Answered present (log ++ log') ↔
      Answered present log ∧ Answered (present ++ log.accepted.map Tree.identifier) log' := by
  induction log generalizing present with
  | nil => simp [Answered, accepted]
  | cons entry log ih =>
    have haccepted : accepted (entry :: log) = accepted [entry] ++ accepted log :=
      accepted_append [entry] log
    rw [List.cons_append, Answered, Answered, ih, haccepted, List.map_append, List.append_assoc,
      and_assoc]

theorem answered_registrations (lib : Library) (ts : List Tree) :
    (lib.registrations ts).Answered lib.identifiers := by
  induction ts generalizing lib with
  | nil => trivial
  | cons t ts ih =>
    rw [registrations]
    cases h : lib.register t with
    | ok lib' =>
      refine ⟨(refusal_of_register_ok h).symm, ?_⟩
      have hlib' : lib'.identifiers = lib.identifiers ++ [t].map Tree.identifier :=
        identifiers_append (templates_of_register h).1
      exact hlib' ▸ ih lib'
    | error e => exact ⟨(refusal_of_register_error h).symm, trivial⟩

theorem answered_history (lib : Library) (calls : List Call) :
    (lib.history calls).Answered lib.identifiers := by
  induction calls generalizing lib with
  | nil => trivial
  | cons call calls ih =>
    rw [history, Log.answered_append]
    refine ⟨lib.answered_registrations call.templates, ?_⟩
    rw [← identifiers_append (lib.templates_perform call)]
    exact ih _

/-! ## Look-ups -/

/-- **A look-up finds the one template of its identifier.** -/
theorem get?_eq_some_iff {lib : Library} {id : String} {t : Tree} :
    lib.get? id = some t ↔ t ∈ lib.templates ∧ t.identifier = id := by
  constructor
  · intro h
    exact ⟨List.mem_of_find?_eq_some h, by simpa using List.find?_some h⟩
  · rintro ⟨ht, rfl⟩
    have hsome : (lib.get? t.identifier).isSome := List.find?_isSome.mpr ⟨t, ht, by simp⟩
    obtain ⟨t', h⟩ := Option.isSome_iff_exists.mp hsome
    have ht' : t' ∈ lib.templates := List.mem_of_find?_eq_some h
    have hid : t'.identifier = t.identifier := by simpa using List.find?_some h
    rw [h, List.inj_on_of_nodup_map lib.distinct ht' ht hid]

theorem isSome_get? {lib : Library} {id : String} :
    (lib.get? id).isSome ↔ id ∈ lib.identifiers := by
  rw [← Option.ne_none_iff_isSome, Ne, get?_eq_none_iff, not_not]

theorem instantiate_eq_of_not_mem {lib : Library} {id : String} (h : id ∉ lib.identifiers) :
    lib.instantiate id = .error (.unknownName id) := by
  rw [instantiate, get?_eq_none_iff.mpr h]

theorem assemble_eq_of_not_mem {lib : Library} {id : String} (h : id ∉ lib.identifiers)
    (children : List (Option Tree)) : lib.assemble id children = .error (.unknownName id) := by
  rw [assemble, instantiate_eq_of_not_mem h]
  rfl

theorem exists_instantiate {lib : Library} {id : String} :
    (∃ t, lib.instantiate id = .ok t) ↔ id ∈ lib.identifiers := by
  rw [← isSome_get?, instantiate]
  cases lib.get? id with
  | none => simp
  | some t => simp

/-- What is in a library stays in it. -/
theorem get?_performAll {lib : Library} {id : String} {t : Tree} (h : lib.get? id = some t)
    (calls : List Call) : (lib.performAll calls).get? id = some t := by
  obtain ⟨ht, hid⟩ := get?_eq_some_iff.mp h
  rw [get?_eq_some_iff, templates_performAll]
  exact ⟨List.mem_append_left _ ht, hid⟩

/-! ## The library and its log -/

/-- The library is as registrations must leave it that were answered as the log says. -/
structure Reflects (lib : Library) (log : Log) : Prop where
  nodup : lib.identifiers.Nodup
  /-- The identifiers are those of the accepted templates, in the order of their registration. -/
  order : lib.identifiers = log.accepted.map Tree.identifier
  /-- A template was refused exactly if its identifier was present by then. -/
  answers : ∀ (pre : Log) t answer post, log = pre ++ (t, answer) :: post →
    answer = if t.identifier ∈ pre.accepted.map Tree.identifier
      then some (.duplicateName t.identifier) else none
  size : lib.size = lib.identifiers.length
  isEmpty : lib.isEmpty ↔ lib.identifiers = []
  contains : ∀ id, lib.contains id ↔ id ∈ lib.identifiers
  get : ∀ id, (lib.get? id).isSome ↔ id ∈ lib.identifiers
  instantiate : ∀ id, (∃ t, lib.instantiate id = .ok t) ↔ id ∈ lib.identifiers
  /-- What is found under an identifier is the first accepted template that has it. -/
  first : ∀ id, lib.get? id = log.accepted.find? (·.identifier == id)
  key : ∀ id t, lib.get? id = some t → t.identifier = id
  /-- No later call replaces what is found. -/
  kept : ∀ id t, lib.get? id = some t → ∀ calls, (lib.performAll calls).get? id = some t
  refused : ∀ t, t.identifier ∈ lib.identifiers →
    lib.perform (.register t) = (lib, some (.duplicateName t.identifier))
  accepted : ∀ t, t.identifier ∉ lib.identifiers → (lib.perform (.register t)).2 = none
  unknown : ∀ id, id ∉ lib.identifiers → lib.instantiate id = .error (.unknownName id) ∧
    ∀ children, lib.assemble id children = .error (.unknownName id)

/-- **Every library reflects the log of the calls that made it**, failed ones included. -/
theorem reflects_history (calls : List Call) :
    (empty.performAll calls).Reflects (empty.history calls) := by
  have htemplates : (empty.performAll calls).templates = (empty.history calls).accepted :=
    templates_performAll empty calls
  refine {
    nodup := (empty.performAll calls).distinct
    order := congrArg (List.map Tree.identifier) htemplates
    answers := ?_
    size := (List.length_map _).symm
    isEmpty := ?_
    contains := fun id => isSome_get?
    get := fun id => isSome_get?
    instantiate := fun id => exists_instantiate
    first := fun id => congrArg (List.find? _) htemplates
    key := fun id t h => (get?_eq_some_iff.mp h).2
    kept := fun id t h => get?_performAll h
    refused := ?_
    accepted := ?_
    unknown := fun id h => ⟨instantiate_eq_of_not_mem h, assemble_eq_of_not_mem h⟩ }
  · intro pre t answer post hlog
    have hanswered := answered_history empty calls
    rw [hlog, Log.answered_append] at hanswered
    exact hanswered.2.1
  · rw [isEmpty, List.isEmpty_iff, identifiers, List.map_eq_nil_iff]
  · intro t h
    rw [perform, register_of_mem h]
  · intro t h
    rw [perform]
    cases hr : (empty.performAll calls).register t with
    | ok lib' => rfl
    | error e =>
      have hrefusal := refusal_of_register_error hr
      rw [refusal, if_neg h] at hrefusal
      exact absurd hrefusal (by simp)

/-- Stocking goes on up to the first operator that is there already. -/
example : (empty.performAll [.register Op.not.empty, .stock]).identifiers = ["NOT", "AND", "OR"] := by
  decide +kernel

end ExprTree.Library
