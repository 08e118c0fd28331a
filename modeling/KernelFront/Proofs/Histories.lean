import KernelFront.Proofs.Guarded
import KernelFront.Proofs.Inference.Growth
import Mathlib.Data.List.Induction

/-! # Histories of symbol tables

A history is a table with a journal of what was asked of it and what it answered. The journal alone
says what the table holds: which binding an identity denotes, which identity a name means, and which
binding is that of the result. A fresh table agrees with its empty journal, each request keeps the
agreement (`Remembers.answered`), and so does every sequence of requests.
-/

namespace KernelFront.SymbolTable

/-! ## Requests and their answers -/

/-- Something that is asked of a table. -/
inductive Request where
  | insert (var : Variable)
  | returnSlot
  | lookup (name : String)
  | setType (id : SymbolId) (ty : Option Ty)
  deriving DecidableEq, Repr

/-- A request with its answer. -/
inductive Event where
  | inserted (var : Variable) (id : SymbolId)
  | gaveSlot (id : SymbolId)
  | lookedUp (name : String) (found : Option SymbolId)
  | retyped (id : SymbolId) (ty : Option Ty)
  deriving DecidableEq, Repr

/-- The request that was answered. -/
def Event.request : Event → Request
  | .inserted var _ => .insert var
  | .gaveSlot _ => .returnSlot
  | .lookedUp name _ => .lookup name
  | .retyped id ty => .setType id ty

/-- A table with what was asked of it and what it answered, the latest event last. -/
structure History where
  journal : List Event := []
  table : SymbolTable := {}
  deriving DecidableEq, Repr

namespace History

/-- Answer a request. A type can be set only on a binding that is there. -/
def serve (history : History) : Request → Except Fault History
  | .insert var =>
      let (id, table) := history.table.insert var
      .ok { journal := history.journal ++ [.inserted var id], table }
  | .returnSlot =>
      let (id, table) := history.table.ensureReturnSlot
      .ok { journal := history.journal ++ [.gaveSlot id], table }
  | .lookup name =>
      let found := history.table.lookup name
      .ok { history with journal := history.journal ++ [.lookedUp name found] }
  | .setType id ty =>
      if id.index < history.table.size then
        .ok { journal := history.journal ++ [.retyped id ty], table := history.table.setType id ty }
      else .error (.symbol id history.table.size)

/-- The history of a fresh table that is asked requests one after the other. -/
def ofRequests (requests : List Request) : Except Fault History := requests.foldlM serve {}

end History

/-! ## What a journal says -/

/-- Whether a request inserts a variable. -/
def Request.isInsert : Request → Bool
  | .insert _ => true
  | _ => false

/-- How many bindings requests make: one for each variable that is inserted, and one for the result,
however often it is asked for. -/
def made (requests : List Request) : Nat :=
  requests.countP Request.isInsert + if .returnSlot ∈ requests then 1 else 0

/-- An event makes a binding for an identity: a variable is inserted under it, or it is given for
the result for the first time. -/
inductive Makes (before : List Event) : Event → SymbolId → Variable → Prop where
  | inserted (var : Variable) (id : SymbolId) : Makes before (.inserted var id) id var
  | gaveSlot {id : SymbolId} (hfirst : ∀ other, .gaveSlot other ∉ before) :
      Makes before (.gaveSlot id) id {}

/-- What an event does to the binding of an identity: nothing, unless its type is set. -/
def Event.act (id : SymbolId) (var : Variable) : Event → Variable
  | .retyped other ty => if id = other then { var with ty } else var
  | _ => var

/-- The identity under which an event inserted a variable of a name. -/
def Event.idNamed? (name : String) : Event → Option SymbolId
  | .inserted var id => if var.name = some name then some id else none
  | _ => none

/-- The identity of the variable of a name that was inserted last. -/
def latest? (name : String) (journal : List Event) : Option SymbolId :=
  (journal.filterMap (Event.idNamed? name)).getLast?

/-- What a table holds and what it answered is what its journal says. -/
structure Remembers (journal : List Event) (table : SymbolTable) : Prop where
  /-- Identities are the numbers of the bindings in the order in which these were made. From then on
  an identity denotes that binding, and no event but a new type for it changes the binding. -/
  denotes : ∀ {before after : List Event} {event : Event} {id : SymbolId} {var : Variable},
    journal = before ++ event :: after → Makes before event id var →
      id = ⟨made (before.map Event.request)⟩ ∧ table.get? id = some (after.foldl (Event.act id) var)
  size : table.size = made (journal.map Event.request)
  /-- All requests for the slot of the result are given one identity. -/
  returnSlot : ∀ id, .gaveSlot id ∈ journal ↔ table.returnSlot = some id
  /-- A name meant the latest variable of that name whenever it was looked up. -/
  lookedUp : ∀ {before after : List Event} {name : String} {found : Option SymbolId},
    journal = before ++ .lookedUp name found :: after → found = latest? name before
  /-- A name means the latest variable of that name. -/
  lookup : ∀ name, table.lookup name = latest? name journal
  /-- Types were set on bindings that had been made. -/
  retyped : ∀ {before after : List Event} {id : SymbolId} {ty : Option Ty},
    journal = before ++ .retyped id ty :: after → id.index < made (before.map Event.request)

/-- No name ever means the binding of the result, which has no name. -/
def Anonymous (journal : List Event) (table : SymbolTable) : Prop :=
  ∀ id, .gaveSlot id ∈ journal →
    (∃ var, table.get? id = some var ∧ var.name = none) ∧
      ∀ name, .lookedUp name (some id) ∉ journal ∧ table.lookup name ≠ some id

/-! ## What a request does -/

/-- What a table answers to a request, and what becomes of it. -/
inductive Answered (table : SymbolTable) : Event → SymbolTable → Prop where
  | inserted (var : Variable) : Answered table (.inserted var ⟨table.size⟩) (table.insert var).2
  | slotMade (hnone : table.returnSlot = none) :
      Answered table (.gaveSlot ⟨table.size⟩)
        { (table.insert {}).2 with returnSlot := some ⟨table.size⟩ }
  | slotKept {id : SymbolId} (hslot : table.returnSlot = some id) :
      Answered table (.gaveSlot id) table
  | lookedUp (name : String) : Answered table (.lookedUp name (table.lookup name)) table
  | retyped {id : SymbolId} (ty : Option Ty) (hid : id.index < table.size) :
      Answered table (.retyped id ty) (table.setType id ty)

variable {journal before after : List Event} {event : Event} {table next : SymbolTable}
  {history : History} {request : Request} {requests : List Request}

theorem History.serve_ok {last : History} (hserve : history.serve request = .ok last) :
    ∃ event, event.request = request ∧ last.journal = history.journal ++ [event] ∧
      Answered history.table event last.table := by
  cases request with
  | insert var =>
      cases hserve
      exact ⟨_, rfl, rfl, .inserted var⟩
  | returnSlot =>
      simp only [serve, ensureReturnSlot] at hserve
      split at hserve <;> cases hserve
      · rename_i id hslot
        exact ⟨_, rfl, rfl, .slotKept hslot⟩
      · rename_i hnone
        exact ⟨_, rfl, rfl, .slotMade hnone⟩
  | lookup name =>
      cases hserve
      exact ⟨_, rfl, rfl, .lookedUp name⟩
  | setType id ty =>
      simp only [serve] at hserve
      split at hserve <;> cases hserve
      rename_i hid
      exact ⟨_, rfl, rfl, .retyped ty hid⟩

/-- Only a type for a binding that is not there cannot be set. -/
theorem History.serve_error {fault : Fault} (hserve : history.serve request = .error fault) :
    ∃ id ty, request = .setType id ty ∧ history.table.size ≤ id.index ∧
      fault = .symbol id history.table.size := by
  cases request with
  | setType id ty =>
      simp only [serve] at hserve
      split at hserve <;> cases hserve
      rename_i hid
      exact ⟨id, ty, rfl, Nat.le_of_not_lt hid, rfl⟩
  | _ => cases hserve

/-! ## Small facts about journals -/

theorem made_append_singleton (requests : List Request) (request : Request) :
    made (requests ++ [request]) = made requests + match request with
      | .insert _ => 1
      | .returnSlot => if .returnSlot ∈ requests then 0 else 1
      | .lookup _ | .setType _ _ => 0 := by
  cases request with
  | returnSlot => by_cases hslot : .returnSlot ∈ requests <;> simp [made, Request.isInsert, hslot]
  | insert => simp [made, Request.isInsert, Nat.add_right_comm]
  | lookup => simp [made, Request.isInsert]
  | setType => simp [made, Request.isInsert]

theorem returnSlot_mem_map_request :
    .returnSlot ∈ journal.map Event.request ↔ ∃ id, .gaveSlot id ∈ journal := by
  constructor
  · intro hmem
    obtain ⟨event, hevent, hrequest⟩ := List.mem_map.mp hmem
    cases event <;> cases hrequest
    exact ⟨_, hevent⟩
  · rintro ⟨id, hmem⟩
    exact List.mem_map.mpr ⟨_, hmem, rfl⟩

/-- A place of a journal that one event was added to is the place of that event or one before. -/
theorem eq_or_of_append_singleton {last : Event}
    (hsplit : journal ++ [last] = before ++ event :: after) :
    (journal = before ∧ last = event ∧ after = []) ∨
      ∃ rest, journal = before ++ event :: rest ∧ after = rest ++ [last] := by
  rcases List.eq_nil_or_concat after with rfl | ⟨rest, other, rfl⟩
  · obtain ⟨rfl, hlast⟩ := List.append_inj' hsplit rfl
    exact .inl ⟨rfl, List.singleton_inj.mp hlast, rfl⟩
  · rw [List.concat_eq_append, ← List.cons_append, ← List.append_assoc] at hsplit
    obtain ⟨rfl, hlast⟩ := List.append_inj' hsplit rfl
    exact .inr ⟨rest, rfl, by rw [hlast, List.concat_eq_append]⟩

@[simp] theorem act_name (id : SymbolId) (var : Variable) (event : Event) :
    (event.act id var).name = var.name := by
  cases event with
  | retyped other ty =>
      simp only [Event.act]
      split <;> rfl
  | _ => rfl

@[simp] theorem foldl_act_name (id : SymbolId) (var : Variable) (events : List Event) :
    (events.foldl (Event.act id) var).name = var.name := by
  induction events generalizing var with
  | nil => rfl
  | cons event events ih => rw [List.foldl_cons, ih, act_name]

theorem latest?_append_singleton (name : String) (journal : List Event) (event : Event) :
    latest? name (journal ++ [event]) = (event.idNamed? name).or (latest? name journal) := by
  rw [latest?, List.filterMap_append]
  cases hid : event.idNamed? name with
  | none => simp [hid, latest?]
  | some id => simp [hid]

/-- The latest variable of a name was inserted. -/
theorem exists_of_latest? {name : String} {id : SymbolId}
    (hlatest : latest? name journal = some id) :
    ∃ var, .inserted var id ∈ journal ∧ var.name = some name := by
  obtain ⟨event, hevent, hid⟩ := List.mem_filterMap.mp (List.mem_of_getLast? hlatest)
  cases event with
  | inserted var other =>
      simp only [Event.idNamed?] at hid
      split at hid <;> cases hid
      rename_i hname
      exact ⟨var, hevent, hname⟩
  | _ => cases hid

/-! ## One request -/

theorem get?_insert_self (table : SymbolTable) (var : Variable) :
    (table.insert var).2.get? ⟨table.size⟩ = some var := by
  simp [insert, get?, size]

namespace Answered

/-- An identity keeps denoting its binding. -/
theorem get?_next (hanswered : Answered table event next) {id : SymbolId} {var : Variable}
    (hvar : table.get? id = some var) : next.get? id = some (event.act id var) := by
  cases hanswered with
  | inserted new => exact get?_insert new hvar
  | slotMade => exact get?_insert {} hvar
  | slotKept => exact hvar
  | lookedUp => exact hvar
  | retyped ty =>
      rw [get?_setType, Event.act]
      split
      · rename_i hid
        rw [← hid, hvar, Option.map_some]
      · exact hvar

/-- A name keeps its meaning until a variable of that name is inserted. -/
theorem lookup_next (hanswered : Answered table event next) (name : String) :
    next.lookup name = (event.idNamed? name).or (table.lookup name) := by
  cases hanswered with
  | inserted var =>
      rw [lookup_insert, Event.idNamed?]
      split <;> rfl
  | slotMade => exact lookup_insert table {} name
  | slotKept => rfl
  | lookedUp => rfl
  | retyped => exact lookup_setType ..

end Answered

namespace Remembers

variable (hbefore : Remembers journal table) (hanswered : Answered table event next)
include hbefore hanswered

theorem size_answered : next.size = made ((journal ++ [event]).map Event.request) := by
  rw [List.map_append, List.map_singleton, made_append_singleton, ← hbefore.size]
  cases hanswered with
  | inserted var => simp [Event.request, insert, SymbolTable.size]
  | slotMade hnone =>
      have hfirst : .returnSlot ∉ journal.map Event.request := by
        rw [returnSlot_mem_map_request]
        rintro ⟨id, hid⟩
        have hgiven := (hbefore.returnSlot id).mp hid
        rw [hnone] at hgiven
        cases hgiven
      simp only [Event.request, if_neg hfirst]
      simp [insert, SymbolTable.size]
  | slotKept hslot =>
      have hlater : .returnSlot ∈ journal.map Event.request :=
        returnSlot_mem_map_request.mpr ⟨_, (hbefore.returnSlot _).mpr hslot⟩
      simp only [Event.request, if_pos hlater, Nat.add_zero]
  | lookedUp name => rfl
  | retyped ty => simp [Event.request, setType, SymbolTable.size]

theorem returnSlot_answered (id : SymbolId) :
    .gaveSlot id ∈ journal ++ [event] ↔ next.returnSlot = some id := by
  have hslot := hbefore.returnSlot id
  rw [List.mem_append, hslot, List.mem_singleton]
  cases hanswered with
  | slotMade hnone => simp [hnone, eq_comm]
  | slotKept hkept => simp [hkept, eq_comm]
  | _ => simp [insert, setType]

/-- A binding that is made gets the next number. -/
theorem makes_answered {id : SymbolId} {var : Variable} (hmakes : Makes journal event id var) :
    id = ⟨made (journal.map Event.request)⟩ ∧ next.get? id = some var := by
  rw [← hbefore.size]
  cases hanswered with
  | inserted var =>
      cases hmakes
      exact ⟨rfl, get?_insert_self table var⟩
  | slotMade =>
      cases hmakes
      exact ⟨rfl, get?_insert_self table {}⟩
  | slotKept hslot =>
      cases hmakes with
      | gaveSlot hfirst => exact absurd ((hbefore.returnSlot id).mpr hslot) (hfirst id)
  | lookedUp name => cases hmakes
  | retyped ty => cases hmakes

/-- The table that answered a request remembers it. -/
theorem answered : Remembers (journal ++ [event]) next where
  denotes {before after made id var} hsplit hmakes := by
    obtain ⟨rfl, rfl, rfl⟩ | ⟨rest, rfl, rfl⟩ := eq_or_of_append_singleton hsplit
    · exact hbefore.makes_answered hanswered hmakes
    · obtain ⟨hid, hvar⟩ := hbefore.denotes rfl hmakes
      refine ⟨hid, ?_⟩
      rw [List.foldl_append]
      exact hanswered.get?_next hvar
  size := hbefore.size_answered hanswered
  returnSlot := hbefore.returnSlot_answered hanswered
  lookedUp hsplit := by
    obtain ⟨rfl, hlast, -⟩ | ⟨rest, rfl, -⟩ := eq_or_of_append_singleton hsplit
    · cases hanswered <;> cases hlast
      exact hbefore.lookup _
    · exact hbefore.lookedUp rfl
  lookup name := by
    rw [hanswered.lookup_next, hbefore.lookup, latest?_append_singleton]
  retyped hsplit := by
    obtain ⟨rfl, hlast, -⟩ | ⟨rest, rfl, -⟩ := eq_or_of_append_singleton hsplit
    · cases hanswered <;> cases hlast
      rename_i hid
      exact hbefore.size ▸ hid
    · exact hbefore.retyped rfl

end Remembers

/-! ## Sequences of requests -/

theorem remembers_nil : Remembers [] {} where
  denotes hsplit := by simp at hsplit
  size := rfl
  returnSlot id := by simp
  lookedUp hsplit := by simp at hsplit
  lookup _ := rfl
  retyped hsplit := by simp at hsplit

namespace Remembers

variable (hremembers : Remembers journal table)
include hremembers

/-- The first event that gave a slot is the one that made its binding. -/
theorem get?_slot {id : SymbolId} (hslot : .gaveSlot id ∈ journal) :
    ∃ var, table.get? id = some var ∧ var.name = none := by
  obtain ⟨before, after, rfl, hfirst⟩ := List.eq_append_cons_of_mem hslot
  have hnone (other : SymbolId) : .gaveSlot other ∉ before := by
    intro hother
    have hgiven := (hremembers.returnSlot other).mp (List.mem_append_left _ hother)
    rw [(hremembers.returnSlot id).mp hslot] at hgiven
    cases hgiven
    exact hfirst hother
  exact ⟨_, (hremembers.denotes rfl (.gaveSlot hnone)).2, foldl_act_name ..⟩

/-- The binding of an inserted variable keeps its name. -/
theorem get?_inserted {id : SymbolId} {var : Variable} (hinserted : .inserted var id ∈ journal) :
    ∃ now, table.get? id = some now ∧ now.name = var.name := by
  obtain ⟨before, after, rfl⟩ := List.append_of_mem hinserted
  exact ⟨_, (hremembers.denotes rfl (.inserted var id)).2, foldl_act_name ..⟩

/-- No part of the journal makes a name mean the binding of the result, since inserted variables
that names mean keep their names. -/
theorem latest?_ne {name : String} {id : SymbolId} (hslot : .gaveSlot id ∈ journal)
    (hpart : before <+: journal) : latest? name before ≠ some id := by
  intro hlatest
  obtain ⟨var, hinserted, hname⟩ := exists_of_latest? hlatest
  obtain ⟨now, hnow, hkept⟩ := hremembers.get?_inserted (hpart.mem hinserted)
  obtain ⟨slot, hslotted, hanonymous⟩ := hremembers.get?_slot hslot
  cases hnow.symm.trans hslotted
  exact nomatch (hanonymous.symm.trans hkept).trans hname

theorem anonymous : Anonymous journal table := by
  intro id hslot
  refine ⟨hremembers.get?_slot hslot, fun name => ⟨fun hfound => ?_, ?_⟩⟩
  · obtain ⟨before, after, hsplit⟩ := List.append_of_mem hfound
    exact hremembers.latest?_ne hslot ⟨_, hsplit.symm⟩ (hremembers.lookedUp hsplit).symm
  · rw [hremembers.lookup]
    exact hremembers.latest?_ne hslot List.prefix_rfl

end Remembers

/-- The names of a table are listed with what they mean. -/
theorem mem_names {name : String} {id : SymbolId} :
    (name, id) ∈ table.names ↔ table.lookup name = some id := by
  simp only [names, List.mem_filterMap, Prod.exists, List.mem_zipIdx_iff_getElem?]
  constructor
  · rintro ⟨var, index, -, hentry⟩
    obtain ⟨other, -, hentry⟩ := Option.bind_eq_some_iff.mp hentry
    split at hentry <;> cases hentry
    assumption
  · intro hfound
    obtain ⟨var, hvar, hname⟩ := lookup_some hfound
    exact ⟨var, id.index, hvar, by simp [hname, hfound]⟩

namespace History

theorem ofRequests_append_singleton (requests : List Request) (request : Request) :
    ofRequests (requests ++ [request]) = ofRequests requests >>= (serve · request) := by
  simp only [ofRequests, List.foldlM_append, List.foldlM_cons, List.foldlM_nil, bind_pure]

/-- What was answered is remembered. -/
theorem remembers_of_ok (hok : ofRequests requests = .ok history) :
    history.journal.map Event.request = requests ∧ Remembers history.journal history.table := by
  induction requests using List.reverseRec generalizing history with
  | nil =>
      cases hok
      exact ⟨rfl, remembers_nil⟩
  | append_singleton requests request ih =>
      rw [ofRequests_append_singleton] at hok
      cases hearlier : ofRequests requests with
      | error fault =>
          rw [hearlier] at hok
          cases hok
      | ok earlier =>
          rw [hearlier] at hok
          obtain ⟨event, hrequest, hjournal, hanswered⟩ := serve_ok hok
          obtain ⟨hrequests, hremembers⟩ := ih hearlier
          rw [hjournal, List.map_append, hrequests, List.map_singleton, hrequest]
          exact ⟨rfl, hremembers.answered hanswered⟩

/-- Only a type for a binding that had not been made stops the requests. -/
theorem unknown_of_error {fault : Fault} (herror : ofRequests requests = .error fault) :
    ∃ before id ty after, requests = before ++ .setType id ty :: after ∧ made before ≤ id.index ∧
      fault = .symbol id (made before) := by
  induction requests using List.reverseRec with
  | nil => cases herror
  | append_singleton requests request ih =>
      rw [ofRequests_append_singleton] at herror
      cases hearlier : ofRequests requests with
      | error earlier =>
          rw [hearlier] at herror
          cases herror
          obtain ⟨before, id, ty, after, rfl, hunknown⟩ := ih hearlier
          exact ⟨before, id, ty, after ++ [request], by simp, hunknown⟩
      | ok earlier =>
          rw [hearlier] at herror
          obtain ⟨id, ty, rfl, hunknown, rfl⟩ := serve_error herror
          obtain ⟨hrequests, hremembers⟩ := remembers_of_ok hearlier
          rw [hremembers.size, hrequests] at hunknown ⊢
          exact ⟨requests, id, ty, [], rfl, hunknown, rfl⟩

end History

-- A later variable of a name hides the earlier one, and the slot of the result between them is made
-- once.
example :
    (History.ofRequests [.insert (.globalNamed "x" .object), .returnSlot,
      .insert (.localNamed "x" none), .setType ⟨2⟩ (some .object), .returnSlot, .lookup "x"]).map
        History.journal =
      .ok [.inserted (.globalNamed "x" .object) ⟨0⟩, .gaveSlot ⟨1⟩,
        .inserted (.localNamed "x" none) ⟨2⟩, .retyped ⟨2⟩ (some .object), .gaveSlot ⟨1⟩,
        .lookedUp "x" (some ⟨2⟩)] := by
  rfl

end KernelFront.SymbolTable
