import CentreonBroker.Lib.Decimal
import CentreonBroker.Lib.Strtok

/-!
# Log lines

`set_log_data` reads the lines that the engine logs: a description up to a colon, and fields between
semicolons. It takes the fields with `strtok_r`; when there is none left it throws, catches that,
and leaves the entry as it is.
-/

namespace CentreonBroker.Neb

/-- `log_entry::log_msg_type`. -/
inductive LogMsgType where
  | service_alert
  | host_alert
  | service_notification
  | host_notification
  | warning
  | other
  | service_initial_state
  | host_initial_state
  | service_acknowledge_problem
  | host_acknowledge_problem
  | service_event_handler
  | host_event_handler
  | global_service_event_handler
  | global_host_event_handler
  deriving DecidableEq, Repr

/-- What `set_log_data` writes of a `log_entry`. -/
structure LogEntry where
  msgType : LogMsgType
  hostName : List Char
  serviceDescription : List Char
  notificationContact : List Char
  notificationCmd : List Char
  status : ℕ
  logType : ℕ
  retry : ℤ
  output : List Char
  hostId : ℕ
  serviceId : ℕ
  deriving DecidableEq, Repr

/-- `engine::get_host_id` and `engine::get_service_id`. -/
structure Ids where
  getHostId : List Char → ℕ
  getServiceId : List Char → List Char → ℕ

def statusId (status : List Char) : ℕ :=
  if status = ['D', 'O', 'W', 'N'] ∨ status = ['W', 'A', 'R', 'N', 'I', 'N', 'G'] then 1
  else if status = ['U', 'N', 'R', 'E', 'A', 'C', 'H', 'A', 'B', 'L', 'E'] ∨
      status = ['C', 'R', 'I', 'T', 'I', 'C', 'A', 'L'] then 2
  else if status = ['U', 'N', 'K', 'N', 'O', 'W', 'N'] then 3
  else if status = ['P', 'E', 'N', 'D', 'I', 'N', 'G'] then 4
  else 0

/-- The status is in parentheses, if there are some. -/
def notificationStatusId (status : List Char) : ℕ :=
  match status.dropWhile (· ≠ '(') with
  | [] => statusId status
  | _ :: substatus => statusId (substatus.takeWhile (· ≠ ')'))

def typeId (type : List Char) : ℕ := if type = ['H', 'A', 'R', 'D'] then 1 else 0

/-- `strtol` into an `int`. -/
def retryOf (s : List Char) : ℤ := Int.bmod (Decimal.strtol s).1 (2 ^ 32)

/-- What is done with an extracted field. -/
inductive Slot where
  | hostName
  | serviceDescription
  | notificationContact
  | notificationCmd
  | status
  | notificationStatus
  | logType
  | retry
  | output
  | ignored
  deriving DecidableEq, Repr

def Slot.set (le : LogEntry) (data : List Char) : Slot → LogEntry
  | .hostName => { le with hostName := data }
  | .serviceDescription => { le with serviceDescription := data }
  | .notificationContact => { le with notificationContact := data }
  | .notificationCmd => { le with notificationCmd := data }
  | .status => { le with status := statusId data }
  | .notificationStatus => { le with status := notificationStatusId data }
  | .logType => { le with logType := typeId data }
  | .retry => { le with retry := retryOf data }
  | .output => { le with output := data }
  | .ignored => le

/-- `log_extract_first` and `log_extract`: none when they throw. -/
def logExtract (lasts : List Char) : Option (List Char × List Char) :=
  Strtok.strtok (· = ';') lasts

/-- The fields are extracted one after the other, until that throws. -/
def extract : List Slot → LogEntry → List Char → LogEntry
  | [], le, _ => le
  | slot :: slots, le, lasts =>
    match logExtract lasts with
    | none => le
    | some (data, lasts) => extract slots (slot.set le data) lasts

/-- The descriptions that always have the same fields. -/
inductive Kind where
  | serviceAlert
  | hostAlert
  | serviceNotification
  | hostNotification
  | initialHostState
  | initialServiceState
  | hostEventHandler
  | serviceEventHandler
  | globalHostEventHandler
  | globalServiceEventHandler
  deriving DecidableEq, Repr

namespace Kind

def description : Kind → String
  | serviceAlert => "SERVICE ALERT"
  | hostAlert => "HOST ALERT"
  | serviceNotification => "SERVICE NOTIFICATION"
  | hostNotification => "HOST NOTIFICATION"
  | initialHostState => "INITIAL HOST STATE"
  | initialServiceState => "INITIAL SERVICE STATE"
  | hostEventHandler => "HOST EVENT HANDLER"
  | serviceEventHandler => "SERVICE EVENT HANDLER"
  | globalHostEventHandler => "GLOBAL HOST EVENT HANDLER"
  | globalServiceEventHandler => "GLOBAL SERVICE EVENT HANDLER"

def msgType : Kind → LogMsgType
  | serviceAlert => .service_alert
  | hostAlert => .host_alert
  | serviceNotification => .service_notification
  | hostNotification => .host_notification
  | initialHostState => .host_initial_state
  | initialServiceState => .service_initial_state
  | hostEventHandler => .host_event_handler
  | serviceEventHandler => .service_event_handler
  | globalHostEventHandler => .global_host_event_handler
  | globalServiceEventHandler => .global_service_event_handler

def slots : Kind → List Slot
  | serviceNotification =>
    [.notificationContact, .hostName, .serviceDescription, .notificationStatus, .notificationCmd]
  | hostNotification => [.notificationContact, .hostName, .notificationStatus, .notificationCmd]
  | hostAlert | initialHostState | hostEventHandler | globalHostEventHandler =>
    [.hostName, .status, .logType, .retry]
  | serviceAlert | initialServiceState | serviceEventHandler | globalServiceEventHandler =>
    [.hostName, .serviceDescription, .status, .logType, .retry]

/-- In the order of the source. The command comes before the event handlers there, and has a
description of its own. -/
def all : List Kind :=
  [serviceAlert, hostAlert, serviceNotification, hostNotification, initialHostState,
    initialServiceState, hostEventHandler, serviceEventHandler, globalHostEventHandler,
    globalServiceEventHandler]

end Kind

/-- An external command: acknowledgements have fields, the other ones are not read. -/
def externalCommand (le : LogEntry) (log_data lasts : List Char) : LogEntry :=
  match logExtract lasts with
  | none => le
  | some (data, lasts) =>
    if String.ofList data = "ACKNOWLEDGE_SVC_PROBLEM" then
      extract [.hostName, .serviceDescription, .ignored, .ignored, .ignored, .notificationContact,
        .output] { le with msgType := .service_acknowledge_problem } lasts
    else if String.ofList data = "ACKNOWLEDGE_HOST_PROBLEM" then
      extract [.hostName, .ignored, .ignored, .ignored, .notificationContact, .output]
        { le with msgType := .host_acknowledge_problem } lasts
    else { le with msgType := .other, output := log_data }

/-- The body of the `try`. -/
def readLogData (le : LogEntry) (log_data : List Char) : LogEntry :=
  let datadup := String.ofList (log_data.takeWhile (· ≠ ':'))
  let lasts := ((log_data.dropWhile (· ≠ ':')).drop 1).dropWhile (· = ' ')
  match Kind.all.find? (·.description = datadup) with
  | some kind => extract (kind.slots ++ [.output]) { le with msgType := kind.msgType } lasts
  | none =>
    if datadup = "EXTERNAL COMMAND" then externalCommand le log_data lasts
    else if datadup = "Warning" then { le with msgType := .warning, output := lasts }
    else { le with msgType := .other, output := log_data }

/-- The ids are those of the names that the entry has in the end. -/
def LogEntry.identified (ids : Ids) (le : LogEntry) : LogEntry :=
  { le with
    hostId := ids.getHostId le.hostName
    serviceId := ids.getServiceId le.hostName le.serviceDescription }

def setLogData (ids : Ids) (le : LogEntry) (log_data : List Char) : LogEntry :=
  (readLogData le log_data).identified ids

/-! ## The lines of the engine -/

/-- A text that is one field. -/
abbrev Field := { s : List Char // ';' ∉ s }

/-- What the engine logs. A kind of line has some of the fields. -/
structure Line where
  kind : Kind
  host : Field
  service : Field
  contact : Field
  command : Field
  status : Field
  type : Field
  retry : Field
  output : List Char

namespace Line

/-- The fields that a line has, without the output. -/
def fields (l : Line) : List Field :=
  match l.kind with
  | .serviceNotification => [l.contact, l.host, l.service, l.status, l.command]
  | .hostNotification => [l.contact, l.host, l.status, l.command]
  | .hostAlert | .initialHostState | .hostEventHandler | .globalHostEventHandler =>
    [l.host, l.status, l.type, l.retry]
  | .serviceAlert | .initialServiceState | .serviceEventHandler | .globalServiceEventHandler =>
    [l.host, l.service, l.status, l.type, l.retry]

def joined (fields : List (List Char)) (output : List Char) : List Char :=
  fields.foldr (fun f r => f ++ ';' :: r) output

def text (l : Line) : List Char :=
  l.kind.description.toList ++ ':' :: ' ' :: joined (l.fields.map Subtype.val) l.output

/-- The entry with exactly the fields of the line. -/
def filled (ids : Ids) (l : Line) (le : LogEntry) : LogEntry :=
  LogEntry.identified ids <|
    let le := { le with msgType := l.kind.msgType, hostName := l.host.1, output := l.output }
    match l.kind with
    | .serviceNotification =>
      { le with
        serviceDescription := l.service.1
        notificationContact := l.contact.1
        status := notificationStatusId l.status.1
        notificationCmd := l.command.1 }
    | .hostNotification =>
      { le with
        notificationContact := l.contact.1
        status := notificationStatusId l.status.1
        notificationCmd := l.command.1 }
    | .hostAlert | .initialHostState | .hostEventHandler | .globalHostEventHandler =>
      { le with
        status := statusId l.status.1
        logType := typeId l.type.1
        retry := retryOf l.retry.1 }
    | .serviceAlert | .initialServiceState | .serviceEventHandler | .globalServiceEventHandler =>
      { le with
        serviceDescription := l.service.1
        status := statusId l.status.1
        logType := typeId l.type.1
        retry := retryOf l.retry.1 }

/-- What the separators leave as it is: no field is empty, the line does not begin with a space,
and the output is one piece. -/
structure Intact (l : Line) : Prop where
  fields : ∀ f ∈ l.fields, f.1 ≠ []
  head : ∀ f ∈ l.fields.head?, f.1.head? ≠ some ' '
  output_ne : l.output ≠ []
  output : ';' ∉ l.output

end Line

/-! ## What is extracted -/

section Extract

/-- The tokens that `log_extract` gives. -/
def pieces (s : List Char) : List (List Char) := Strtok.tokens (· = ';') s

/-- The slots get the tokens in order, as long as there are some. -/
def fill (le : LogEntry) : List Slot → List (List Char) → LogEntry
  | slot :: slots, data :: rest => fill (slot.set le data) slots rest
  | _, _ => le

theorem extract_eq (slots : List Slot) (le : LogEntry) (lasts : List Char) :
    extract slots le lasts = fill le slots (pieces lasts) := by
  induction slots generalizing le lasts with
  | nil => rfl
  | cons slot slots ih =>
    rw [extract, logExtract, pieces]
    rcases @Strtok.strtok_spec _ (· = ';') lasts with ⟨htokens, hnone⟩ | ⟨t, r, htokens, hsome⟩
    · rw [hnone, htokens]
      rfl
    · rw [hsome, htokens]
      exact ih (slot.set le t) r

/-- The output is the token behind those of the other slots, if there is one. -/
theorem output_fill {slots : List Slot} (h : .output ∉ slots) (le : LogEntry)
    (ts : List (List Char)) :
    (fill le (slots ++ [.output]) ts).output = ts[slots.length]?.getD le.output := by
  induction slots generalizing le ts with
  | nil => cases ts <;> rfl
  | cons slot slots ih =>
    obtain ⟨hslot, hslots⟩ := not_or.mp (mt List.mem_cons.mpr h)
    cases ts with
    | nil => rfl
    | cons t ts =>
      have hset : (slot.set le t).output = le.output := by
        cases slot with
        | output => exact absurd rfl hslot
        | _ => rfl
      rw [List.cons_append, fill, ih hslots, hset]
      rfl

end Extract

namespace Line

theorem find_kind (k : Kind) : Kind.all.find? (·.description = k.description) = some k := by
  cases k <;> decide +kernel

theorem colon_not_mem (k : Kind) : ':' ∉ k.description.toList := by
  cases k <;> decide +kernel

/-- What the line is read from: the spaces that it begins with are skipped. -/
theorem readLogData_text (l : Line) (le : LogEntry) :
    readLogData le l.text =
      fill { le with msgType := l.kind.msgType } (l.kind.slots ++ [.output])
        (pieces ((joined (l.fields.map Subtype.val) l.output).dropWhile (· = ' '))) := by
  have hcolon : ∀ c ∈ l.kind.description.toList, decide (c ≠ ':') = true := fun c hc =>
    decide_eq_true fun h => colon_not_mem l.kind (h ▸ hc)
  have htake : l.text.takeWhile (· ≠ ':') = l.kind.description.toList := by
    rw [text, List.takeWhile_append_of_pos hcolon]
    exact List.append_nil _
  have hdrop : l.text.dropWhile (· ≠ ':') =
      ':' :: ' ' :: joined (l.fields.map Subtype.val) l.output := by
    rw [text, List.dropWhile_append_of_pos hcolon]
    rfl
  unfold readLogData
  rw [htake, hdrop, String.ofList_toList]
  dsimp only
  rw [find_kind]
  exact extract_eq _ _ _

/-- The fields as they are extracted. -/
def stripped (l : Line) : List (List Char) :=
  match l.fields with
  | [] => []
  | f :: fs => f.1.dropWhile (· = ' ') :: fs.map Subtype.val

theorem dropWhile_append_semicolon (f r : List Char) :
    (f ++ ';' :: r).dropWhile (· = ' ') = f.dropWhile (· = ' ') ++ ';' :: r := by
  induction f with
  | nil => rfl
  | cons c f ih =>
    by_cases hc : c = ' '
    · simpa [hc] using ih
    · simp [hc]

theorem pieces_joined {fields : List (List Char)} (h : ∀ f ∈ fields, ';' ∉ f)
    (output : List Char) :
    pieces (joined fields output) = fields.filter (!·.isEmpty) ++ pieces output := by
  induction fields with
  | nil => rfl
  | cons f fields ih =>
    obtain ⟨hf, hfields⟩ := List.forall_mem_cons.mp h
    have hsep : ∀ c ∈ f, decide (c = ';') = false := fun c hc =>
      decide_eq_false fun he => hf (he ▸ hc)
    rw [← List.singleton_append, List.filter_append, List.append_assoc, ← ih hfields]
    exact Strtok.tokens_append hsep (decide_eq_true rfl) _

theorem pieces_text (l : Line) :
    pieces ((joined (l.fields.map Subtype.val) l.output).dropWhile (· = ' ')) =
      l.stripped.filter (!·.isEmpty) ++ pieces l.output := by
  have hstripped : (joined (l.fields.map Subtype.val) l.output).dropWhile (· = ' ') =
      joined l.stripped l.output := by
    unfold stripped
    cases hfields : l.fields with
    | nil =>
      unfold fields at hfields
      cases hk : l.kind <;> simp [hk] at hfields
    | cons f fs => exact dropWhile_append_semicolon _ _
  rw [hstripped]
  refine pieces_joined (fun f hf => ?_) _
  unfold stripped at hf
  cases hfields : l.fields with
  | nil =>
    rw [hfields] at hf
    cases hf
  | cons g fs =>
    rw [hfields] at hf
    rcases List.mem_cons.mp hf with rfl | hf
    · exact fun h => g.2 ((List.dropWhile_suffix _).mem h)
    · obtain ⟨f, -, rfl⟩ := List.mem_map.mp hf
      exact f.2

theorem length_slots (l : Line) : l.kind.slots.length = l.stripped.length := by
  unfold stripped fields Kind.slots
  cases l.kind <;> rfl

theorem output_not_mem (k : Kind) : Slot.output ∉ k.slots := by
  cases k <;> decide +kernel

/-- An intact line is read back. -/
theorem Intact.setLogData_text {l : Line} (h : l.Intact) (ids : Ids) (le : LogEntry) :
    setLogData ids le l.text = l.filled ids le := by
  have hstripped : l.stripped = l.fields.map Subtype.val := by
    have hhead := h.head
    unfold stripped
    cases hfields : l.fields with
    | nil => rfl
    | cons f fs =>
      rw [hfields] at hhead
      have hspace := hhead f rfl
      refine congrArg (· :: _) ?_
      cases hf : f.1 with
      | nil => rfl
      | cons c s =>
        rw [hf] at hspace
        exact List.dropWhile_cons_of_neg (by simpa using hspace)
  have hfilter : (l.fields.map Subtype.val).filter (!·.isEmpty) = l.fields.map Subtype.val := by
    refine List.filter_eq_self.mpr fun s hs => ?_
    obtain ⟨f, hf, rfl⟩ := List.mem_map.mp hs
    simpa using h.fields f hf
  have houtput : pieces l.output = [l.output] := by
    have hsep : ∀ c ∈ l.output, decide (c = ';') = false := fun c hc =>
      decide_eq_false fun he => h.output (he ▸ hc)
    have hne := h.output_ne
    exact (Strtok.tokens_single hsep).trans (by simp [hne])
  rw [setLogData, readLogData_text, pieces_text, hstripped, hfilter, houtput]
  unfold filled Line.fields Kind.slots
  cases l.kind <;> rfl

/-- The first slot is that of a name. -/
theorem fill_stripped {l : Line} {ids : Ids} {le : LogEntry}
    (h : (fill { le with msgType := l.kind.msgType } (l.kind.slots ++ [.output])
      (l.stripped ++ [l.output])).identified ids = l.filled ids le) :
    ∀ f ∈ l.fields.head?, f.1.dropWhile (· = ' ') = f.1 := by
  have hhost := congrArg LogEntry.hostName h
  have hcontact := congrArg LogEntry.notificationContact h
  revert hhost hcontact
  unfold stripped Line.fields filled Kind.slots
  cases l.kind <;> intro hhost hcontact f hf <;> cases hf <;> assumption

/-- When the line begins with no space and nothing is dropped, the fields are those of the line. -/
theorem intact_of_stripped {l : Line} (hstripped : ∀ s ∈ l.stripped, s ≠ [])
    (hhead : ∀ f ∈ l.fields.head?, f.1.dropWhile (· = ' ') = f.1) (hne : l.output ≠ [])
    (hsep : ';' ∉ l.output) : l.Intact := by
  refine ⟨fun f hf => ?_, fun f hf hspace => ?_, hne, hsep⟩
  · unfold stripped at hstripped
    cases hfields : l.fields with
    | nil => simp [hfields] at hf
    | cons g fs =>
      rw [hfields] at hf hhead hstripped
      obtain ⟨hg, hfs⟩ := List.forall_mem_cons.mp hstripped
      rcases List.mem_cons.mp hf with rfl | hf
      · rwa [← hhead f rfl]
      · exact hfs f.1 (List.mem_map_of_mem hf)
  · have hspaces := hhead f hf
    cases hf' : f.1 with
    | nil => simp [hf'] at hspace
    | cons c s =>
      rw [hf'] at hspace hspaces
      obtain rfl := Option.some.inj hspace
      have hs : s.dropWhile (· = ' ') = ' ' :: s := hspaces
      have hle := (List.dropWhile_suffix (l := s) (· = ' ')).length_le
      rw [hs, List.length_cons] at hle
      exact Nat.not_succ_le_self _ hle

/-- A line that is read back in an entry whose output is another one is intact. -/
theorem intact_of_setLogData {l : Line} {ids : Ids} {le : LogEntry}
    (h : setLogData ids le l.text = l.filled ids le) (hle : le.output ≠ l.output) : l.Intact := by
  have hfilled : (l.filled ids le).output = l.output := by
    unfold filled
    cases l.kind <;> rfl
  rw [setLogData, readLogData_text, pieces_text] at h
  have hout := (output_fill (output_not_mem l.kind) _ _).symm.trans
    ((congrArg LogEntry.output h).trans hfilled)
  -- with too few tokens the output would be as before, so it is one of the tokens
  have hsome : (l.stripped.filter (!·.isEmpty) ++ pieces l.output)[l.kind.slots.length]? =
      some l.output := by
    cases hget : (l.stripped.filter (!·.isEmpty) ++ pieces l.output)[l.kind.slots.length]? with
    | none =>
      rw [hget] at hout
      exact absurd hout hle
    | some t =>
      rw [hget] at hout
      exact congrArg some hout
  have hmem := List.mem_of_getElem? hsome
  rw [← pieces_text] at hmem
  obtain ⟨hne, hsep⟩ := Strtok.of_mem_tokens hmem
  have hpieces : pieces l.output = [l.output] := by
    exact (Strtok.tokens_single hsep).trans (by simp [hne])
  -- it is the only one of its own, so that no other field is dropped
  obtain ⟨hmany, -⟩ := List.getElem?_eq_some_iff.mp hsome
  have hlength := l.length_slots
  rw [hpieces, List.length_append, List.length_singleton] at hmany
  have hstripped : ∀ s ∈ l.stripped, s ≠ [] := fun s hs => by
    have hfilter := List.length_filter_le (!·.isEmpty) l.stripped
    simpa using List.length_filter_eq_length_iff.mp
      (Nat.le_antisymm hfilter (by omega)) s hs
  have hall : l.stripped.filter (!·.isEmpty) = l.stripped :=
    List.filter_eq_self.mpr fun s hs => by simpa using hstripped s hs
  rw [hall, hpieces] at h
  have hhead := fill_stripped h
  exact intact_of_stripped hstripped hhead hne fun hmem => by simpa using hsep _ hmem

theorem text_ne_output (l : Line) : l.text ≠ l.output := by
  have hjoined : ∀ fields : List (List Char),
      l.output.length ≤ (joined fields l.output).length := by
    intro fields
    induction fields with
    | nil => exact Nat.le_refl _
    | cons f fields ih =>
      refine Nat.le_trans ih ?_
      show _ ≤ (f ++ ';' :: joined fields l.output).length
      simp only [List.length_append, List.length_cons]
      omega
  intro h
  have hlength := congrArg List.length h
  have hle := hjoined (l.fields.map Subtype.val)
  simp only [text, List.length_append, List.length_cons] at hlength
  omega

/-- **A log line is read back** in exactly these cases. The callback gives the entry that has the
line as its output. -/
theorem setLogData_iff (ids : Ids) (l : Line) (le : LogEntry) :
    (setLogData ids { le with output := l.text } l.text = l.filled ids le ↔ l.Intact) ∧
      ((∀ le, setLogData ids le l.text = l.filled ids le) ↔ l.Intact) := by
  have hfilled : l.filled ids { le with output := l.text } = l.filled ids le := by
    unfold filled
    cases l.kind <;> rfl
  rw [← hfilled]
  refine ⟨⟨fun h => intact_of_setLogData h l.text_ne_output, fun h => h.setLogData_text ids _⟩, ?_⟩
  refine ⟨fun h => ?_, fun h le => h.setLogData_text ids le⟩
  exact intact_of_setLogData (h { le with output := l.text }) l.text_ne_output

/-- A host alert whose output has a separator. -/
def separated : Line where
  kind := .hostAlert
  host := ⟨['h'], by decide⟩
  service := ⟨[], List.not_mem_nil⟩
  contact := ⟨[], List.not_mem_nil⟩
  command := ⟨[], List.not_mem_nil⟩
  status := ⟨['D', 'O', 'W', 'N'], by decide⟩
  type := ⟨['H', 'A', 'R', 'D'], by decide⟩
  retry := ⟨['1'], by decide⟩
  output := ['a', ';', 'b']

theorem not_setLogData : ¬ ∀ (ids : Ids) (l : Line) (le : LogEntry),
    setLogData ids { le with output := l.text } l.text = l.filled ids le := by
  intro h
  have hread := h ⟨fun _ => 0, fun _ _ => 0⟩ separated
    ⟨.service_alert, [], [], [], [], 0, 0, 0, [], 0, 0⟩
  exact (intact_of_setLogData hread separated.text_ne_output).output (by decide)

end Line

end CentreonBroker.Neb
