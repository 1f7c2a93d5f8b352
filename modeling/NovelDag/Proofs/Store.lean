import NovelDag.Store

/-!
# Obligations are met

What a command is answered is read off the commands alone: a read gets the last write before it, a
`notify_read` the last write before it or else the first one after it. The store answers so, each
command once.
-/

namespace NovelDag

namespace Store

/-! ## What is owed -/

/-- What a command writes at the key. -/
def writes (key : Key) : StoreCommand → Option Value
  | .write key' value => if key' = key then some value else none
  | _ => none

def lastWrite (key : Key) (commands : List StoreCommand) : Option Value :=
  commands.reverse.findSome? (writes key)

/-- The first write of the key after place `i`, with its place. -/
def nextWrite (key : Key) (i : ℕ) (commands : List StoreCommand) : Option (ℕ × Value) :=
  ((commands.drop (i + 1)).zipIdx (i + 1)).findSome? fun c => (writes key c.1).map fun v => (c.2, v)

/-- The responses owed to the command at place `i`. -/
def owed (commands : List StoreCommand) (i : ℕ) : List Sent :=
  match commands[i]? with
  | some (.read key) => [⟨i, i, .read (lastWrite key (commands.take i))⟩]
  | some (.notifyRead key) =>
    match lastWrite key (commands.take i) with
    | some value => [⟨i, i, .notifyRead value⟩]
    | none => ((nextWrite key i commands).map fun w => ⟨w.1, i, .notifyRead w.2⟩).toList
  | _ => []

variable {commands : List StoreCommand} {c : StoreCommand} {key : Key} {i : ℕ}

theorem lastWrite_append : lastWrite key (commands ++ [c]) =
    (writes key c).or (lastWrite key commands) := by
  unfold lastWrite
  rw [List.reverse_append, List.findSome?_append]
  simp

theorem lastWrite_eq_none :
    lastWrite key commands = none ↔ ∀ c ∈ commands, writes key c = none := by
  simp [lastWrite]

theorem nextWrite_eq_none :
    nextWrite key i commands = none ↔ ∀ c ∈ commands.drop (i + 1), writes key c = none := by
  unfold nextWrite
  simp only [List.findSome?_eq_none_iff, Option.map_eq_none_iff]
  constructor
  · intro h c hc
    obtain ⟨j, hj⟩ := List.mem_iff_getElem?.1 hc
    refine h (c, i + 1 + j) (List.mem_zipIdx_iff_le_and_getElem?_sub.2 ⟨by omega, ?_⟩)
    rw [Nat.add_sub_cancel_left]
    exact hj
  · exact fun h c hc => h c.1 (List.fst_mem_of_mem_zipIdx hc)

theorem nextWrite_append (h : i < commands.length) : nextWrite key i (commands ++ [c]) =
    (nextWrite key i commands).or ((writes key c).map fun v => (commands.length, v)) := by
  have hplace : i + 1 + (commands.length - (i + 1)) = commands.length := by omega
  unfold nextWrite
  rw [List.drop_append_of_le_length (by omega), List.zipIdx_append, List.findSome?_append,
    List.length_drop, hplace]
  simp

/-- A key that a `notify_read` waits for was written neither before nor after it. -/
theorem lastWrite_eq_none_iff (h : commands[i]? = some (.notifyRead key)) :
    lastWrite key commands = none ↔
      lastWrite key (commands.take i) = none ∧ nextWrite key i commands = none := by
  have hlt : i < commands.length := (List.getElem?_eq_some_iff.1 h).1
  have hsplit : commands = commands.take i ++ .notifyRead key :: commands.drop (i + 1) := by
    rw [← (List.getElem?_eq_some_iff.1 h).2, List.cons_getElem_drop_succ, List.take_append_drop]
  rw [lastWrite_eq_none, lastWrite_eq_none, nextWrite_eq_none]
  conv_lhs => rw [hsplit]
  simp only [List.mem_append, List.mem_cons, or_imp, forall_and, forall_eq, writes, true_and]

/-- What a further command is owed. -/
theorem owed_append_self : owed (commands ++ [c]) commands.length =
    match c with
    | .write _ _ => []
    | .read key => [⟨commands.length, commands.length, .read (lastWrite key commands)⟩]
    | .notifyRead key => ((lastWrite key commands).map fun value =>
        ⟨commands.length, commands.length, .notifyRead value⟩).toList := by
  unfold owed
  rw [List.getElem?_concat_length, List.take_left]
  cases c with
  | write => rfl
  | read => rfl
  | notifyRead key =>
    simp only []
    rcases lastWrite key commands with _ | value
    · simp [nextWrite]
    · rfl

/-- What an earlier command gets out of a further one: the write it waits for. -/
def due (commands : List StoreCommand) (c : StoreCommand) (i : ℕ) : List Sent :=
  match commands[i]? with
  | some (.notifyRead key) => if lastWrite key commands = none then
      ((writes key c).map fun v => ⟨commands.length, i, .notifyRead v⟩).toList else []
  | _ => []

theorem owed_append (h : i < commands.length) :
    owed (commands ++ [c]) i = owed commands i ++ due commands c i := by
  unfold owed due
  rw [List.getElem?_append_left h, List.take_append_of_le_length h.le]
  rcases hi : commands[i]? with _ | (_ | _ | key)
  · simp
  · simp
  · simp
  · have hnone := lastWrite_eq_none_iff hi
    simp only [nextWrite_append h]
    rcases hbefore : lastWrite key (commands.take i) with _ | value
    · rcases hafter : nextWrite key i commands with _ | w
      · rw [if_pos (hnone.2 ⟨hbefore, hafter⟩)]
        simp [Option.map_map, Function.comp_def]
      · rw [if_neg fun hno => by simp [(hnone.1 hno).2] at hafter]
        simp
    · rw [if_neg fun hno => by simp [(hnone.1 hno).1] at hbefore]
      simp

theorem due_of_writes_none (h : ∀ key, writes key c = none) : due commands c i = [] := by
  unfold due
  split
  · simp [h]
  · rfl

theorem owed_of_length_le (h : commands.length ≤ i) : owed commands i = [] := by
  unfold owed
  rw [List.getElem?_eq_none h]

/-! ## What the store answers -/

/-- The responses to the command at place `i`. -/
def sentTo (i : ℕ) (log : List Sent) : List Sent := log.filter fun s => decide (s.sender = i)

/-- The senders that wait for a key. -/
def waiting (s : State) (key : Key) : List ℕ := (s.obligations.lookup key).getD []

/-- After some commands the database has the last writes, the waiting are the `notify_read`s of keys
not written yet, and everything owed was sent. -/
structure Serves (commands : List StoreCommand) (r : List Sent × State) : Prop where
  db : ∀ key, r.2.db.lookup key = lastWrite key commands
  waits : ∀ key i, i ∈ waiting r.2 key ↔
    commands[i]? = some (.notifyRead key) ∧ lastWrite key commands = none
  once : ∀ key, (waiting r.2 key).Nodup
  met : ∀ key, lastWrite key commands ≠ none → r.2.obligations.lookup key = none
  sent : ∀ i, sentTo i r.1 = owed commands i

theorem sentTo_map {l : List ℕ} (hl : l.Nodup) (now : ℕ) (response : Response) (i : ℕ) :
    sentTo i (l.map fun sender => ⟨now, sender, response⟩) =
      if i ∈ l then [⟨now, i, response⟩] else [] := by
  unfold sentTo
  rw [List.filter_map]
  have hfilter : l.filter ((fun s : Sent => decide (s.sender = i)) ∘ fun sender =>
      ⟨now, sender, response⟩) = l.filter (· == i) := by
    refine List.filter_congr fun j _ => ?_
    simp [beq_eq_decide]
  rw [hfilter, List.filter_beq, hl.count]
  split_ifs
  · rfl
  · rfl

theorem sentTo_append (i : ℕ) (l l' : List Sent) :
    sentTo i (l ++ l') = sentTo i l ++ sentTo i l' := List.filter_append ..

/-- Who waits came before. -/
theorem Serves.lt_length {r : List Sent × State} (h : Serves commands r)
    (hi : i ∈ waiting r.2 key) : i < commands.length :=
  (List.getElem?_eq_some_iff.1 ((h.waits key i).1 hi).1).1

/-- Nothing is owed to a command before it came. -/
theorem Serves.sentTo_of_length_le {r : List Sent × State} (h : Serves commands r)
    (hi : commands.length ≤ i) : sentTo i r.1 = [] := by
  rw [h.sent, owed_of_length_le hi]

theorem getElem?_append_eq_some_notifyRead (h : ∀ key', c ≠ .notifyRead key') :
    (commands ++ [c])[i]? = some (.notifyRead key) ↔
      commands[i]? = some (.notifyRead key) := by
  rcases Nat.lt_trichotomy i commands.length with hlt | rfl | hgt
  · rw [List.getElem?_append_left hlt]
  · simp [h key]
  · rw [List.getElem?_eq_none (by simp; omega), List.getElem?_eq_none hgt.le]

/-- What a further command brings, to those before it and to itself. -/
theorem Serves.sentTo_append {r : List Sent × State} (h : Serves commands r) {new : List Sent}
    (hdue : ∀ i < commands.length, sentTo i new = due commands c i)
    (hself : sentTo commands.length new = owed (commands ++ [c]) commands.length)
    (hlater : ∀ i, commands.length < i → sentTo i new = []) (i : ℕ) :
    sentTo i (r.1 ++ new) = owed (commands ++ [c]) i := by
  rw [Store.sentTo_append]
  rcases Nat.lt_trichotomy i commands.length with hi | rfl | hi
  · rw [owed_append hi, h.sent, hdue i hi]
  · rw [h.sentTo_of_length_le le_rfl, hself, List.nil_append]
  · rw [h.sentTo_of_length_le hi.le, hlater i hi, owed_of_length_le (by simpa using hi)]
    rfl

/-- A command that is answered itself, at once, or not at all. -/
theorem Serves.answer {r : List Sent × State} (h : Serves commands r)
    (hwrites : ∀ key, writes key c = none) (new : Option Response)
    (hself : owed (commands ++ [c]) commands.length =
      (new.map fun response => ⟨commands.length, commands.length, response⟩).toList) (i : ℕ) :
    sentTo i (r.1 ++ (new.map fun response =>
      ⟨commands.length, commands.length, response⟩).toList) = owed (commands ++ [c]) i := by
  have hother : ∀ i, commands.length ≠ i → sentTo i (new.map fun response =>
      (⟨commands.length, commands.length, response⟩ : Sent)).toList = [] := by
    intro i hi
    rcases new with _ | response
    · rfl
    · simp [sentTo, hi]
  refine h.sentTo_append (fun i hi => ?_) ?_ (fun i hi => hother i hi.ne) i
  · rw [hother i hi.ne', due_of_writes_none hwrites]
  · rw [hself]
    rcases new with _ | response
    · rfl
    · simp [sentTo]

theorem Serves.read {log : List Sent} {s : State} (h : Serves commands (log, s)) (key : Key) :
    Serves (commands ++ [StoreCommand.read key]) (log ++ (process s commands.length (.read key)).1,
      (process s commands.length (.read key)).2) := by
  have hlast : ∀ key', lastWrite key' (commands ++ [StoreCommand.read key]) =
      lastWrite key' commands :=
    fun key' => lastWrite_append
  refine ⟨fun key' => ?_, fun key' i => ?_, h.once, fun key' hne => ?_, ?_⟩
  · rw [hlast]
    exact h.db key'
  · rw [hlast, getElem?_append_eq_some_notifyRead (by simp)]
    exact h.waits key' i
  · rw [hlast] at hne
    exact h.met key' hne
  · refine h.answer (fun _ => rfl) (some (.read (s.db.lookup key))) ?_
    rw [owed_append_self, h.db]
    rfl

theorem process_write (s : State) (now : ℕ) (key : Key) (value : Value) :
    (process s now (.write key value)).1 =
        ((waiting s key).map fun sender => ⟨now, sender, .notifyRead value⟩) ∧
      (∀ key', (process s now (.write key value)).2.db.lookup key' =
        if key' = key then some value else s.db.lookup key') ∧
      ∀ key', (process s now (.write key value)).2.obligations.lookup key' =
        if key' = key then none else s.obligations.lookup key' := by
  unfold process waiting
  rcases hlookup : s.obligations.lookup key with _ | senders
  · simp only [hlookup]
    refine ⟨rfl, fun key' => FinMap.lookup_insert_ite _ _ _ _, fun key' => ?_⟩
    split_ifs with hkey
    · rw [hkey, hlookup]
    · rfl
  · simp only [hlookup]
    refine ⟨rfl, fun key' => FinMap.lookup_insert_ite _ _ _ _, fun key' => ?_⟩
    split_ifs with hkey
    · rw [hkey, AList.lookup_erase]
    · exact AList.lookup_erase_ne hkey

theorem Serves.write {log : List Sent} {s : State} (h : Serves commands (log, s)) (key : Key)
    (value : Value) : Serves (commands ++ [StoreCommand.write key value])
      (log ++ (process s commands.length (.write key value)).1,
        (process s commands.length (.write key value)).2) := by
  obtain ⟨hnew, hdb, hobligations⟩ := process_write s commands.length key value
  have hlast : ∀ key', lastWrite key' (commands ++ [StoreCommand.write key value]) =
      if key' = key then some value else lastWrite key' commands := by
    intro key'
    rw [lastWrite_append, writes]
    by_cases hkey : key = key'
    · rw [if_pos hkey, if_pos hkey.symm, Option.some_or]
    · rw [if_neg hkey, if_neg (Ne.symm hkey), Option.none_or]
  refine ⟨fun key' => ?_, fun key' i => ?_, fun key' => ?_, fun key' hne => ?_, ?_⟩
  · rw [hdb, hlast, h.db]
  · rw [hlast, getElem?_append_eq_some_notifyRead (by simp), waiting, hobligations]
    split_ifs with hkey
    · simp
    · exact h.waits key' i
  · rw [waiting, hobligations]
    split_ifs with hkey
    · exact List.nodup_nil
    · exact h.once key'
  · rw [hobligations]
    split_ifs with hkey
    · rfl
    · rw [hlast, if_neg hkey] at hne
      exact h.met key' hne
  · -- the write meets exactly those who wait for its key
    have hsent := fun i => sentTo_map (h.once key) commands.length (.notifyRead value) i
    rw [hnew]
    refine h.sentTo_append (fun i hi => ?_) ?_ fun i hi => ?_
    · have hwaits := h.waits key i
      rw [hsent]
      unfold due
      rcases hi' : commands[i]? with _ | (_ | _ | key') <;> rw [hi'] at hwaits
      · rw [if_neg fun hmem => by simp [hwaits] at hmem]
      · rw [if_neg fun hmem => by simp [hwaits] at hmem]
      · rw [if_neg fun hmem => by simp [hwaits] at hmem]
      · by_cases hkey : key = key'
        · subst hkey
          by_cases hlast' : lastWrite key commands = none
          · simp [hwaits, hlast', writes]
          · simp [hwaits, hlast']
        · rw [if_neg fun hmem => by simp [hwaits, Ne.symm hkey] at hmem]
          simp [writes, hkey]
    · rw [hsent, if_neg fun hmem => lt_irrefl _ (h.lt_length hmem), owed_append_self]
    · rw [hsent, if_neg fun hmem => lt_asymm hi (h.lt_length hmem)]

theorem process_notifyRead_of_none {s : State} (h : s.db.lookup key = none) (now : ℕ) :
    (process s now (.notifyRead key)).1 = [] ∧ (process s now (.notifyRead key)).2.db = s.db ∧
      ∀ key', (process s now (.notifyRead key)).2.obligations.lookup key' =
        if key' = key then some (waiting s key ++ [now]) else s.obligations.lookup key' := by
  unfold process
  simp only [h, true_and]
  exact fun key' => FinMap.lookup_alter _ _ _ _

theorem process_notifyRead_of_some {s : State} {value : Value} (h : s.db.lookup key = some value)
    (now : ℕ) :
    process s now (.notifyRead key) = ([⟨now, now, .notifyRead value⟩], s) := by
  unfold process
  simp only [h]

theorem Serves.notifyRead {log : List Sent} {s : State} (h : Serves commands (log, s))
    (key : Key) : Serves (commands ++ [StoreCommand.notifyRead key])
      (log ++ (process s commands.length (.notifyRead key)).1,
        (process s commands.length (.notifyRead key)).2) := by
  have hlast : ∀ key', lastWrite key' (commands ++ [StoreCommand.notifyRead key]) =
      lastWrite key' commands := fun key' => lastWrite_append
  have hself : owed (commands ++ [StoreCommand.notifyRead key]) commands.length = _ :=
    owed_append_self
  have hplace : ∀ key' i, (commands ++ [StoreCommand.notifyRead key])[i]? = some (.notifyRead key') ↔
      commands[i]? = some (.notifyRead key') ∨ i = commands.length ∧ key = key' := by
    intro key' i
    rcases Nat.lt_trichotomy i commands.length with hlt | rfl | hgt
    · rw [List.getElem?_append_left hlt]
      simp [hlt.ne]
    · simp
    · rw [List.getElem?_eq_none (by simp; omega), List.getElem?_eq_none hgt.le]
      simp [hgt.ne']
  have hlookup := h.db key
  rcases hdb : s.db.lookup key with _ | value <;> rw [hdb] at hlookup
  · -- the sender waits
    obtain ⟨hnew, hdb', hobligations⟩ := process_notifyRead_of_none hdb commands.length
    have hwaiting : ∀ key', waiting (process s commands.length (.notifyRead key)).2 key' =
        if key' = key then waiting s key ++ [commands.length] else waiting s key' := by
      intro key'
      rw [waiting, hobligations]
      split_ifs
      · rfl
      · rfl
    refine ⟨fun key' => ?_, fun key' i => ?_, fun key' => ?_, fun key' hne => ?_, ?_⟩
    · rw [hlast, hdb']
      exact h.db key'
    · rw [hlast, hplace, hwaiting]
      split_ifs with hkey
      · subst hkey
        rw [List.mem_append, h.waits, List.mem_singleton]
        simp [← hlookup]
      · rw [h.waits]
        simp [Ne.symm hkey]
    · rw [hwaiting]
      split_ifs with hkey
      · exact List.nodup_append.2 ⟨h.once key, List.nodup_singleton _, fun i hi j hj => by
          have hlt := h.lt_length hi
          simp only [List.mem_singleton] at hj
          omega⟩
      · exact h.once key'
    · rw [hlast] at hne
      have hkey : key' ≠ key := fun he => hne (by rw [he, ← hlookup])
      rw [hobligations, if_neg hkey]
      exact h.met key' hne
    · rw [hnew]
      refine h.answer (fun _ => rfl) none ?_
      rw [hself]
      simp [← hlookup]
  · rw [process_notifyRead_of_some hdb]
    refine ⟨fun key' => ?_, fun key' i => ?_, h.once, fun key' hne => ?_, ?_⟩
    · rw [hlast]
      exact h.db key'
    · rw [hlast, hplace, h.waits]
      refine ⟨fun hw => ⟨.inl hw.1, hw.2⟩, ?_⟩
      rintro ⟨hw | ⟨-, rfl⟩, hnone⟩
      · exact ⟨hw, hnone⟩
      · rw [hnone] at hlookup
        cases hlookup
    · rw [hlast] at hne
      exact h.met key' hne
    · refine h.answer (fun _ => rfl) (some (.notifyRead value)) ?_
      rw [hself]
      simp [← hlookup]

theorem serves_run (commands : List StoreCommand) : Serves commands (run commands) := by
  induction commands using List.reverseRecOn with
  | nil => exact ⟨fun _ => rfl, fun _ _ => by simp [waiting, run], fun _ => by simp [waiting, run],
      fun _ h => absurd rfl h, fun _ => rfl⟩
  | append_singleton commands c ih =>
    have hrun : run (commands ++ [c]) = ((run commands).1 ++
        (process (run commands).2 commands.length c).1,
        (process (run commands).2 commands.length c).2) := by
      unfold run
      rw [List.zipIdx_append, List.foldl_append]
      simp
    rw [hrun]
    cases c with
    | write key value => exact ih.write key value
    | read key => exact ih.read key
    | notifyRead key => exact ih.notifyRead key

/-- Every command is sent what is owed to it and nothing else, and no one waits for a key that has
been written. -/
theorem store_answers (commands : List StoreCommand) :
    (∀ i, sentTo i (run commands).1 = owed commands i) ∧
      ∀ key, lastWrite key commands ≠ none → (run commands).2.obligations.lookup key = none :=
  ⟨(serves_run commands).sent, (serves_run commands).met⟩

end Store

end NovelDag
