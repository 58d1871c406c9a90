import ConceptUnification.Proofs.StoreHistory
import ConceptUnification.Proofs.TableAlignment

/-!
# What happens to four tables

The tables start empty, and are changed by interning names and restrictions and
by giving names other kinds.  `Performs` says all that one such call may do.  So
the tables stay in step whatever is asked of them, and no later call changes
what a number stands for.
-/

namespace ConceptUnification

namespace AtomTables

/-- The answer to a call, which is a number if the call is for one. -/
def perform (tables : AtomTables) :
    StoreCall → Except MalformedTerm (Option AtomId) × AtomTables
  | .name symbol =>
      let (id, tables) := tables.internName symbol
      (.ok (some id), tables)
  | .restriction role filler =>
      let (answer, tables) := tables.internRestriction role filler
      (answer.map some, tables)
  | .again id =>
      match tables.atom? id with
      | none => (.ok none, tables)
      | some atom =>
          let (id, tables) := tables.intern atom
          (.ok (some id), tables)
  | .setKind id kind => (.ok none, tables.setKind id kind)

/-- The numbers that some calls answer, and the tables after them. -/
def performAll : List StoreCall → AtomTables → List AtomId × AtomTables
  | [], tables => ([], tables)
  | call :: calls, tables =>
      let (answer, tables) := tables.perform call
      let (issued, tables) := performAll calls tables
      (answer.toOption.join.toList ++ issued, tables)

section Steps

/-- What a call may do. -/
inductive Performs (before : AtomTables) :
    Except MalformedTerm (Option AtomId) → AtomTables → Prop
  | known {id : AtomId} (bound : id < before.size) :
      Performs before (.ok (some id)) before
  | name {symbol : String} (unnamed : before.names.find? symbol = none) :
      Performs before (.ok (some before.size)) (before.withName symbol)
  | restriction {role : String} {filler : AtomId}
      (named : ∃ name, before.atom? filler = some (.name name))
      (fresh : before.atoms.find?
        (.restriction (before.roles.insert role).1 filler) = none) :
      Performs before (.ok (some before.size))
        (before.withRestriction role filler)
  | classified (id : AtomId) (kind : NameKind) :
      Performs before (.ok none) (before.setKind id kind)
  | unknown : Performs before (.ok none) before
  | refused (error : MalformedTerm) : Performs before (.error error) before

theorem performs_perform {tables : AtomTables} (aligned : tables.Aligned)
    (call : StoreCall) :
    tables.Performs (tables.perform call).1 (tables.perform call).2 := by
  cases call with
  | name symbol =>
      rw [perform]
      cases known : tables.names.find? symbol with
      | some name =>
          obtain ⟨id, found, same⟩ := aligned.internName_of_known known
          rw [same]
          exact .known (lt_size_of_atom? found)
      | none =>
          rw [aligned.internName_of_fresh known]
          exact .name known
  | restriction role filler =>
      rw [perform]
      by_cases named : ∃ name, tables.atom? filler = some (.name name)
      · cases known : tables.atoms.find?
            (.restriction (tables.roles.insert role).1 filler) with
        | some id =>
            have found := Table.get?_of_find? known
            rw [aligned.internRestriction_of_known named found]
            exact .known (lt_size_of_atom? found)
        | none =>
            rw [internRestriction_of_fresh named known]
            exact .restriction named known
      · obtain ⟨error, refused⟩ := exists_error_of_unnamed role named
        rw [refused]
        exact .refused error
  | again id =>
      rw [perform]
      cases found : tables.atom? id with
      | none => exact .unknown
      | some atom =>
          simp only [intern_of_known found]
          exact .known (lt_size_of_atom? found)
  | setKind id kind => exact .classified id kind

theorem Performs.aligned {before after : AtomTables}
    {answer : Except MalformedTerm (Option AtomId)}
    (performs : before.Performs answer after) (aligned : before.Aligned) :
    after.Aligned := by
  cases performs with
  | known => exact aligned
  | name unnamed => exact aligned.withName unnamed
  | restriction named fresh => exact aligned.withRestriction named fresh
  | classified id kind => exact aligned.setKind id kind
  | unknown => exact aligned
  | refused => exact aligned

/-- What was stored keeps its number. -/
structure Grows (before after : AtomTables) : Prop where
  names : ∀ name symbol, before.names.get? name = some symbol →
    after.names.get? name = some symbol
  roles : ∀ role text, before.roleName? role = some text →
    after.roleName? role = some text
  atoms : ∀ id atom, before.atom? id = some atom → after.atom? id = some atom

theorem Grows.refl (tables : AtomTables) : tables.Grows tables where
  names := fun _ _ found => found
  roles := fun _ _ found => found
  atoms := fun _ _ found => found

theorem Grows.trans {first second third : AtomTables}
    (left : first.Grows second) (right : second.Grows third) :
    first.Grows third where
  names := fun name symbol found =>
    right.names name symbol (left.names name symbol found)
  roles := fun role text found =>
    right.roles role text (left.roles role text found)
  atoms := fun id atom found => right.atoms id atom (left.atoms id atom found)

theorem grows_setKind (tables : AtomTables) (id : AtomId) (kind : NameKind) :
    tables.Grows (tables.setKind id kind) := by
  obtain ⟨kinds, same⟩ := exists_setKind_eq tables id kind
  rw [same]
  exact ⟨fun _ _ found => found, fun _ _ found => found, fun _ _ found => found⟩

theorem Performs.grows {before after : AtomTables}
    {answer : Except MalformedTerm (Option AtomId)}
    (performs : before.Performs answer after) : before.Grows after := by
  cases performs with
  | known => exact .refl before
  | name =>
      exact ⟨fun _ _ => Table.get?_insert_of_get?, fun _ _ found => found,
        fun _ _ => Table.get?_insert_of_get?⟩
  | restriction =>
      exact ⟨fun _ _ found => found, fun _ _ => Table.get?_insert_of_get?,
        fun _ _ => Table.get?_insert_of_get?⟩
  | classified id kind => exact grows_setKind before id kind
  | unknown => exact .refl before
  | refused => exact .refl before

/-- A call answers a number that was given, or gives the next one. -/
theorem Performs.numbers {before after : AtomTables}
    {answer : Except MalformedTerm (Option AtomId)}
    (performs : before.Performs answer after) (aligned : before.Aligned) :
    (answer.toOption.join.toList = [before.size] ∧
        after.size = before.size + 1) ∨
      (∀ id ∈ answer.toOption.join.toList, id < before.size) ∧
        after.size = before.size := by
  cases performs with
  | known bound =>
      right
      refine ⟨?_, rfl⟩
      intro id member
      obtain rfl := List.mem_singleton.mp member
      exact bound
  | name => exact .inl ⟨rfl, size_pushed aligned.fresh_name⟩
  | restriction _ fresh => exact .inl ⟨rfl, size_pushed fresh⟩
  | classified id kind =>
      exact .inr ⟨by simp [Except.toOption], size_setKind before id kind⟩
  | unknown => exact .inr ⟨by simp [Except.toOption], rfl⟩
  | refused => exact .inr ⟨by simp [Except.toOption], rfl⟩

end Steps

section Runs

theorem grows_performAll {tables : AtomTables} (aligned : tables.Aligned)
    (calls : List StoreCall) :
    tables.Grows (performAll calls tables).2 ∧
      (performAll calls tables).2.Aligned := by
  induction calls generalizing tables with
  | nil => exact ⟨.refl tables, aligned⟩
  | cons call calls induction =>
      have performs := performs_perform aligned call
      obtain ⟨grows, still⟩ := induction (performs.aligned aligned)
      exact ⟨performs.grows.trans grows, still⟩

/-- Elements that occurred before are no first occurrences. -/
theorem eraseDups_append_of_subset {as bs cs : List AtomId} (known : bs ⊆ as) :
    (as ++ (bs ++ cs)).eraseDups = (as ++ cs).eraseDups := by
  have nothing : bs.removeAll as = [] := by
    rw [List.removeAll, List.filter_eq_nil_iff]
    intro id member
    simp [known member]
  have rest : (bs ++ cs).removeAll as = cs.removeAll as := by
    rw [List.removeAll, List.filter_append]
    exact (congrArg (· ++ _) nothing).trans (List.nil_append _)
  rw [List.eraseDups_append, List.eraseDups_append, rest]

theorem eraseDups_ids (tables : AtomTables) :
    tables.ids.eraseDups = tables.ids := by
  unfold ids
  induction tables.size with
  | zero => rfl
  | succ size induction =>
      rw [List.range_succ, List.eraseDups_append, induction]
      simp [List.removeAll, List.eraseDups_cons]

/-- What some calls answer are the old numbers and the new ones, and each new
one is answered before all larger ones. -/
theorem eraseDups_performAll {tables : AtomTables} (aligned : tables.Aligned)
    (calls : List StoreCall) :
    (tables.ids ++ (performAll calls tables).1).eraseDups =
      (performAll calls tables).2.ids := by
  induction calls generalizing tables with
  | nil =>
      rw [performAll, List.append_nil]
      exact eraseDups_ids tables
  | cons call calls induction =>
      have performs := performs_perform aligned call
      have later := induction (performs.aligned aligned)
      simp only [performAll]
      rw [← later]
      rcases performs.numbers aligned with ⟨answered, grown⟩ | ⟨known, same⟩
      · have listed : (tables.perform call).2.ids =
            tables.ids ++ [tables.size] := by
          rw [ids, grown, List.range_succ, ids]
        rw [answered, listed, List.append_assoc]
      · have listed : (tables.perform call).2.ids = tables.ids := by
          rw [ids, same, ids]
        rw [listed]
        exact eraseDups_append_of_subset fun id member =>
          mem_ids.mpr (known id member)

end Runs

section Texts

theorem Aligned.exists_text? {tables : AtomTables} (aligned : tables.Aligned)
    {id : AtomId} {atom : StoredAtom} (found : tables.atom? id = some atom) :
    ∃ text, tables.text? id = some text := by
  rw [text?, found]
  cases atom with
  | name => exact ⟨_, rfl⟩
  | restriction role filler =>
      obtain ⟨_, name, named⟩ := aligned.fillers id role filler found
      have used : role < tables.roles.size :=
        (aligned.roles role).mpr ⟨id, filler, found⟩
      obtain ⟨text, stored⟩ := Table.exists_get? used
      rw [← roleName?] at stored
      simp only [stored, named]
      exact ⟨_, rfl⟩

variable {before after : AtomTables} (grows : before.Grows after)
  (aligned : before.Aligned)

include grows aligned

theorem Grows.symbol?_eq {id : AtomId} (bound : id < before.size) :
    after.symbol? id = before.symbol? id := by
  obtain ⟨atom, found⟩ := exists_atom? bound
  rw [symbol?, symbol?, found, grows.atoms id atom found]
  cases atom with
  | restriction => rfl
  | name name =>
      obtain ⟨symbol, stored⟩ := aligned.exists_symbol found
      exact (grows.names name symbol stored).trans stored.symm

theorem Grows.text?_eq {id : AtomId} (bound : id < before.size) :
    after.text? id = before.text? id := by
  obtain ⟨atom, found⟩ := exists_atom? bound
  rw [text?, text?, found, grows.atoms id atom found]
  cases atom with
  | name => simp only [grows.symbol?_eq aligned bound]
  | restriction role filler =>
      obtain ⟨_, name, named⟩ := aligned.fillers id role filler found
      have used : role < before.roles.size :=
        (aligned.roles role).mpr ⟨id, filler, found⟩
      obtain ⟨text, stored⟩ := Table.exists_get? used
      rw [← roleName?] at stored
      simp only [stored, named, grows.roles role text stored,
        grows.atoms filler _ named,
        grows.symbol?_eq aligned (lt_size_of_atom? named)]

end Texts

section Interns

/-- What holds of the tables and of the numbers that they answered. -/
structure Interns (tables : AtomTables) (issued : List AtomId) : Prop where
  aligned : tables.Aligned
  /-- The numbers are given one after the other. -/
  numbered : issued.eraseDups = tables.ids
  /-- Later calls change neither the atom behind a number nor its symbol or
  text. -/
  stable : ∀ id ∈ issued, ∃ atom text,
    tables.atom? id = some atom ∧ tables.text? id = some text ∧
      ∀ later, (performAll later tables).2.atom? id = some atom ∧
        (performAll later tables).2.symbol? id = tables.symbol? id ∧
        (performAll later tables).2.text? id = some text
  distinct : ∀ id ∈ issued, ∀ id' ∈ issued,
    tables.atom? id = tables.atom? id' ↔ id = id'
  again : ∀ id ∈ issued, tables.perform (.again id) = (.ok (some id), tables)
  kinds : ∀ id ∈ issued,
    tables.kind? id = none ↔ tables.isRestriction id = true
  fillers : ∀ id role filler, tables.restriction? id = some (role, filler) →
    filler < id ∧ (tables.symbol? filler).isSome ∧
      (tables.roleName? role).isSome
  contains : ∀ symbol, tables.containsName symbol = true ↔
    ∃ id, tables.findName? symbol = some id
  finds : ∀ symbol id, tables.findName? symbol = some id ↔
    id ∈ issued ∧ tables.symbol? id = some symbol
  answersName : ∀ symbol, ∃ id after,
    tables.perform (.name symbol) = (.ok (some id), after) ∧
      after.symbol? id = some symbol
  answersRestriction : ∀ role filler, (tables.symbol? filler).isSome →
    ∃ id roleId after,
      tables.perform (.restriction role filler) = (.ok (some id), after) ∧
        after.restriction? id = some (roleId, filler) ∧
        after.roleName? roleId = some role
  /-- Not even the role is stored if the filler is no stored name. -/
  refused : ∀ role filler, tables.symbol? filler = none →
    ∃ error, tables.perform (.restriction role filler) = (.error error, tables)
  failed : ∀ call error after,
    tables.perform call = (.error error, after) → after = tables

variable {tables : AtomTables} (aligned : tables.Aligned)

include aligned

theorem Aligned.kind?_eq_none_iff {id : AtomId} (bound : id < tables.size) :
    tables.kind? id = none ↔ tables.isRestriction id = true := by
  obtain ⟨atom, found⟩ := exists_atom? bound
  have isSome := aligned.isSome_kind? found
  rw [isRestriction, restriction?, found]
  cases atom with
  | name =>
      obtain ⟨kind, known⟩ := Option.isSome_iff_exists.mp isSome
      simp [known]
  | restriction =>
      have none_ : tables.kind? id = none := by
        simpa [StoredAtom.name?] using isSome
      simp [none_]

theorem Aligned.isSome_symbol?_iff {id : AtomId} :
    (tables.symbol? id).isSome ↔
      ∃ name, tables.atom? id = some (.name name) := by
  rw [Option.isSome_iff_exists]
  constructor
  · intro named
    obtain ⟨symbol, named⟩ := named
    obtain ⟨name, found, _⟩ := symbol?_eq_some_iff.mp named
    exact ⟨name, found⟩
  · intro named
    obtain ⟨name, found⟩ := named
    obtain ⟨symbol, stored⟩ := aligned.exists_symbol found
    exact ⟨symbol, symbol?_eq_some_iff.mpr ⟨name, found, stored⟩⟩

theorem Aligned.answersName (symbol : String) :
    (tables.internName symbol).2.symbol? (tables.internName symbol).1 =
      some symbol := by
  cases known : tables.names.find? symbol with
  | some name =>
      obtain ⟨id, found, same⟩ := aligned.internName_of_known known
      rw [same]
      exact symbol?_eq_some_iff.mpr ⟨name, found, Table.get?_of_find? known⟩
  | none =>
      rw [aligned.internName_of_fresh known]
      have number := (Table.entries_insert_of_find?_eq_none known).1
      refine symbol?_eq_some_iff.mpr ⟨tables.names.size,
        atom?_pushed_self aligned.fresh_name, ?_⟩
      rw [← number]
      exact Table.get?_insert_self tables.names symbol

theorem Aligned.answersRestriction (role : String) {filler : AtomId}
    (named : ∃ name, tables.atom? filler = some (.name name)) :
    ∃ id roleId after,
      tables.internRestriction role filler = (.ok id, after) ∧
        after.restriction? id = some (roleId, filler) ∧
        after.roleName? roleId = some role := by
  cases known : tables.atoms.find?
      (.restriction (tables.roles.insert role).1 filler) with
  | some id =>
      have found := Table.get?_of_find? known
      refine ⟨_, _, _, aligned.internRestriction_of_known named found,
        restriction?_eq_some_iff.mpr found, ?_⟩
      have stored := Table.get?_insert_self tables.roles role
      rw [aligned.insert_role_of_known found] at stored
      exact stored
  | none =>
      exact ⟨_, _, _, internRestriction_of_fresh named known,
        restriction?_eq_some_iff.mpr (atom?_pushed_self known),
        Table.get?_insert_self tables.roles role⟩

theorem Aligned.interns {issued : List AtomId}
    (numbered : issued.eraseDups = tables.ids) : tables.Interns issued := by
  have bounds : ∀ id, id ∈ issued ↔ id < tables.size := by
    intro id
    rw [← List.mem_eraseDups, numbered, mem_ids]
  constructor
  case aligned => exact aligned
  case numbered => exact numbered
  case stable =>
    intro id member
    have bound := (bounds id).mp member
    obtain ⟨atom, found⟩ := exists_atom? bound
    obtain ⟨text, written⟩ := aligned.exists_text? found
    refine ⟨atom, text, found, written, fun later => ?_⟩
    obtain ⟨grows, _⟩ := grows_performAll aligned later
    exact ⟨grows.atoms id atom found, grows.symbol?_eq aligned bound,
      (grows.text?_eq aligned bound).trans written⟩
  case distinct =>
    intro id member id' member'
    obtain ⟨atom, found⟩ := exists_atom? ((bounds id).mp member)
    constructor
    · intro same
      exact atom?_injective found (same.symm.trans found)
    · intro same
      rw [same]
  case again =>
    intro id member
    obtain ⟨atom, found⟩ := exists_atom? ((bounds id).mp member)
    simp only [perform, found, intern_of_known found]
  case kinds =>
    intro id member
    exact aligned.kind?_eq_none_iff ((bounds id).mp member)
  case fillers =>
    intro id role filler present
    have found := restriction?_eq_some_iff.mp present
    obtain ⟨earlier, named⟩ := aligned.fillers id role filler found
    have used : role < tables.roles.size :=
      (aligned.roles role).mpr ⟨id, filler, found⟩
    exact ⟨earlier, aligned.isSome_symbol?_iff.mpr named,
      Option.isSome_iff_exists.mpr (Table.exists_get? used)⟩
  case contains => exact fun symbol => aligned.containsName_iff
  case finds =>
    intro symbol id
    rw [findName?_eq_some_iff, bounds]
    constructor
    · intro named
      obtain ⟨name, found, _⟩ := symbol?_eq_some_iff.mp named
      exact ⟨lt_size_of_atom? found, named⟩
    · intro named
      exact named.2
  case answersName =>
    exact fun symbol => ⟨_, _, rfl, aligned.answersName symbol⟩
  case answersRestriction =>
    intro role filler named
    obtain ⟨id, roleId, after, performed, present, stored⟩ :=
      aligned.answersRestriction role (aligned.isSome_symbol?_iff.mp named)
    refine ⟨id, roleId, after, ?_, present, stored⟩
    rw [perform, performed]
    rfl
  case refused =>
    intro role filler unnamed
    obtain ⟨error, refused⟩ := @exists_error_of_unnamed tables role filler (by
      rw [← aligned.isSome_symbol?_iff, unnamed]
      exact Bool.false_ne_true)
    refine ⟨error, ?_⟩
    rw [perform, refused]
    rfl
  case failed =>
    intro call error after performed
    have performs := performs_perform aligned call
    rw [performed] at performs
    cases performs with
    | refused => rfl

end Interns

end AtomTables

end ConceptUnification
