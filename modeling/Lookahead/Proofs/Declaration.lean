import Lookahead.Proofs.Canonical
import Mathlib.Data.List.Nodup

set_option autoImplicit false

namespace Lookahead

def numbered {ι α : Type} (identifier : Nat → ι) (entries : Array α) : List (ι × α) :=
  entries.toList.zipIdx.map fun (entry, i) => (identifier i, entry)

theorem numbered_push {ι α : Type} (identifier : Nat → ι) (entries : Array α) (entry : α) :
    numbered identifier (entries.push entry) = numbered identifier entries ++ [(identifier entries.size, entry)] := by
  simp [numbered, List.zipIdx_append]

theorem map_snd_numbered {ι α : Type} (identifier : Nat → ι) (entries : Array α) :
    (numbered identifier entries).map Prod.snd = entries.toList := by
  rw [numbered, List.map_map]
  exact List.zipIdx_map_fst 0 entries.toList

theorem filterMap_lookup {ι α : Type} (entries : List (ι × α)) (lookup : ι → Option α)
    (agree : ∀ entry ∈ entries, lookup entry.1 = some entry.2) :
    (entries.map Prod.fst).filterMap (fun i => (lookup i).map (i, ·)) = entries := by
  rw [List.filterMap_map]
  calc entries.filterMap _ = entries.filterMap some := List.filterMap_congr fun entry member => by
        simp [agree entry member]
    _ = entries := List.filterMap_some

-- What a step declares, if it succeeds.
namespace Step

def terminal? : Step → Option String
  | .terminal name => some name
  | _ => none

def layout? : Step → Option String
  | .layout name => some name
  | _ => none

def nonterminal? : Step → Option String
  | .nonterminal name => some name
  | _ => none

def production? : Step → Option Production
  | .production admitted left right => some ⟨left, right, .ofList admitted⟩
  | _ => none

end Step

abbrev LogEntry := Step × Except DefinitionError Declared

namespace LogEntry

def terminal? : LogEntry → Option (Terminal × String)
  | (.terminal name, .ok (.terminal t)) => some (t, name)
  | _ => none

def layout? : LogEntry → Option (Layout × String)
  | (.layout name, .ok (.layout l)) => some (l, name)
  | _ => none

def nonterminal? : LogEntry → Option (Nonterminal × String)
  | (.nonterminal name, .ok (.nonterminal n)) => some (n, name)
  | _ => none

def production? : LogEntry → Option (ProductionId × Production)
  | (.production layout left right, .ok (.production id)) => some (id, ⟨left, right, .ofList layout⟩)
  | _ => none

structure Faithful (entry : LogEntry) : Prop where
  terminal : entry.terminal?.map Prod.snd = entry.1.terminal?
  layout : entry.layout?.map Prod.snd = entry.1.layout?
  nonterminal : entry.nonterminal?.map Prod.snd = entry.1.nonterminal?
  production : entry.production?.map Prod.snd = entry.1.production?

theorem map_snd_filterMap {ι α : Type} (log : List LogEntry) (declared : LogEntry → Option (ι × α))
    (said : Step → Option α) (agree : ∀ entry ∈ log, (declared entry).map Prod.snd = said entry.1) :
    (log.filterMap declared).map Prod.snd = (log.map Prod.fst).filterMap said := by
  rw [List.map_filterMap, List.filterMap_map]
  exact List.filterMap_congr agree

end LogEntry

-- The names of one kind: the reserved ones first, none twice, and no more than there are numbers.
structure Names (reserved : List String) (names : Array String) : Prop where
  first : reserved <+: names.toList
  distinct : names.toList.Nodup
  bounded : names.size ≤ Definition.nameLimit

theorem Names.push {reserved : List String} {names : Array String} (orderly : Names reserved names) {name : String}
    (fresh : name ∉ names) (room : names.size < Definition.nameLimit) : Names reserved (names.push name) where
  first := by
    rw [Array.toList_push]
    exact orderly.first.trans (List.prefix_append _ _)
  distinct := by
    rw [Array.toList_push]
    refine List.nodup_append.mpr ⟨orderly.distinct, List.nodup_singleton name, fun a old b new same => fresh ?_⟩
    rw [List.mem_singleton.mp new] at same
    exact Array.mem_toList_iff.mp (same ▸ old)
  bounded := by
    rw [Array.size_push]
    exact room

theorem Names.findIdx?_eq_some_iff {reserved : List String} {names : Array String} (orderly : Names reserved names)
    (name : String) (i : Nat) : names.findIdx? (· == name) = some i ↔ names[i]? = some name := by
  rw [Array.findIdx?_eq_some_iff_getElem, Array.getElem?_eq_some_iff]
  constructor
  · intro ⟨bound, here, _⟩
    exact ⟨bound, beq_iff_eq.mp here⟩
  · intro ⟨bound, here⟩
    refine ⟨bound, beq_iff_eq.mpr here, fun j before same => ?_⟩
    have inside : i < names.toList.length := bound
    have earlier : j < names.toList.length := Nat.lt_trans before bound
    have twice : names.toList[j] = names.toList[i] := by
      simpa [here] using same
    exact Nat.ne_of_lt before ((List.Nodup.getElem_inj_iff orderly.distinct).mp twice)

def Production.Same (p q : Production) : Prop := p.left = q.left ∧ p.right = q.right

structure Distinct (terminals layouts nonterminals : Array String) (rules : Array Production) : Prop where
  terminals : Names ["#EOI"] terminals
  layouts : Names [] layouts
  nonterminals : Names ["#Start"] nonterminals
  bounded : rules.size ≤ Definition.ruleLimit
  rules : rules.toList.Pairwise fun p q => ¬ p.Same q

theorem Distinct.index_of_same {terminals layouts nonterminals : Array String} {rules : Array Production}
    (distinct : Distinct terminals layouts nonterminals rules) {i j : Nat} {p q : Production}
    (found : rules[i]? = some p) (found' : rules[j]? = some q) (same : p.Same q) : i = j := by
  obtain ⟨insideI, rfl⟩ := Array.getElem?_eq_some_iff.mp found
  obtain ⟨insideJ, rfl⟩ := Array.getElem?_eq_some_iff.mp found'
  have apart := List.pairwise_iff_getElem.mp distinct.rules
  rcases Nat.lt_trichotomy i j with before | here | behind
  · exact absurd same (apart i j insideI insideJ before)
  · exact here
  · exact absurd ⟨same.1.symm, same.2.symm⟩ (apart j i insideJ insideI behind)

namespace Definition

inductive Acts (d : Definition) : Step → Definition → Except DefinitionError Declared → Prop where
  | terminal (name : String) (fresh : name ∉ d.terminals) (room : d.terminals.size < nameLimit) :
      Acts d (.terminal name) { d with terminals := d.terminals.push name } (.ok (.terminal ⟨d.terminals.size⟩))
  | layout (name : String) (fresh : name ∉ d.layouts) (room : d.layouts.size < nameLimit) :
      Acts d (.layout name) { d with layouts := d.layouts.push name } (.ok (.layout ⟨d.layouts.size⟩))
  | nonterminal (name : String) (fresh : name ∉ d.nonterminals) (room : d.nonterminals.size < nameLimit) :
      Acts d (.nonterminal name) { d with nonterminals := d.nonterminals.push name }
        (.ok (.nonterminal ⟨d.nonterminals.size⟩))
  | production (layout : List Layout) (left : Nonterminal) (right : Array Symbol)
      (sound : d.productionBreach? ⟨left, right, .ofList layout⟩ = none) :
      Acts d (.production layout left right) { d with rules := d.rules.push ⟨left, right, .ofList layout⟩ }
        (.ok (.production (.rule d.rules.size)))
  | startSymbol (n : Nonterminal) (declared : d.Declares (.nonterminal n)) :
      Acts d (.startSymbol n) { d with startSymbol := some n } (.ok .nothing)
  | startLayout (layout : List Layout) (admitted : LayoutSet) (outcome : Except DefinitionError Declared) :
      Acts d (.startLayout layout) { d with startLayout := admitted } outcome
  | refused (step : Step) (e : DefinitionError) : Acts d step d (.error e)

theorem nameBreach?_eq_none {names : Array String} {name : String} (sound : nameBreach? names name = none) :
    name ∉ names ∧ names.size < nameLimit := by
  unfold nameBreach? at sound
  split at sound
  · cases sound
  · split at sound
    · cases sound
    · exact ⟨by assumption, by omega⟩

theorem admitStartLayout_frame (d : Definition) (ls : List Layout) :
    ∃ admitted, (d.admitStartLayout ls).1 = { d with startLayout := admitted } := by
  induction ls generalizing d with
  | nil => exact ⟨d.startLayout, rfl⟩
  | cons l rest ih =>
      rw [Definition.admitStartLayout]
      split
      · obtain ⟨admitted, same⟩ := ih { d with startLayout := d.startLayout.insert l }
        exact ⟨admitted, same⟩
      · exact ⟨d.startLayout, rfl⟩

theorem apply_acts (d : Definition) (step : Step) : d.Acts step (d.apply step).1 (d.apply step).2 := by
  cases step with
  | terminal name =>
      cases breach : nameBreach? d.terminals name with
      | some e => simpa only [apply, breach] using Acts.refused _ e
      | none =>
          obtain ⟨fresh, room⟩ := nameBreach?_eq_none breach
          simpa only [apply, breach] using Acts.terminal name fresh room
  | layout name =>
      cases breach : nameBreach? d.layouts name with
      | some e => simpa only [apply, breach] using Acts.refused _ e
      | none =>
          obtain ⟨fresh, room⟩ := nameBreach?_eq_none breach
          simpa only [apply, breach] using Acts.layout name fresh room
  | nonterminal name =>
      cases breach : nameBreach? d.nonterminals name with
      | some e => simpa only [apply, breach] using Acts.refused _ e
      | none =>
          obtain ⟨fresh, room⟩ := nameBreach?_eq_none breach
          simpa only [apply, breach] using Acts.nonterminal name fresh room
  | production layout left right =>
      cases breach : d.productionBreach? ⟨left, right, .ofList layout⟩ with
      | some e => simpa only [apply, breach] using Acts.refused _ e
      | none => simpa only [apply, breach] using Acts.production layout left right breach
  | startSymbol n =>
      cases breach : d.nonterminalBreach? n with
      | some e => simpa only [apply, breach] using Acts.refused _ e
      | none => simpa only [apply, breach] using Acts.startSymbol n (declares_of_nonterminalBreach? breach)
  | startLayout layout =>
      obtain ⟨admitted, same⟩ := d.admitStartLayout_frame layout
      change d.Acts _ (d.admitStartLayout layout).1 _
      rw [same]
      exact .startLayout layout admitted _

theorem rule_of_productionBreach? {d : Definition} {p : Production} (sound : d.productionBreach? p = none) :
    (∀ q ∈ d.rules, ¬ q.Same p) ∧ d.rules.size < ruleLimit := by
  rw [productionBreach?] at sound
  simp only [Option.or_eq_none_iff] at sound
  obtain ⟨-, -, -, rest⟩ := sound
  split at rest
  · cases rest
  · rename_i fresh
    split at rest
    · cases rest
    · refine ⟨fun q member same => fresh ?_, by omega⟩
      exact Array.any_eq_true'.mpr ⟨q, member, decide_eq_true same⟩

def KeepsApart (d : Definition) : Prop := Distinct d.terminals d.layouts d.nonterminals d.rules

theorem empty_keepsApart : empty.KeepsApart where
  terminals := ⟨List.prefix_rfl, by decide, by decide⟩
  layouts := ⟨List.prefix_rfl, by decide, by decide⟩
  nonterminals := ⟨List.prefix_rfl, by decide, by decide⟩
  bounded := by decide
  rules := .nil

theorem Acts.keepsApart {d d' : Definition} {step : Step} {outcome : Except DefinitionError Declared}
    (acts : d.Acts step d' outcome) (distinct : d.KeepsApart) : d'.KeepsApart := by
  cases acts with
  | terminal name fresh room => exact { distinct with terminals := distinct.terminals.push fresh room }
  | layout name fresh room => exact { distinct with layouts := distinct.layouts.push fresh room }
  | nonterminal name fresh room => exact { distinct with nonterminals := distinct.nonterminals.push fresh room }
  | production layout left right sound =>
      obtain ⟨fresh, room⟩ := rule_of_productionBreach? sound
      refine { distinct with bounded := ?_, rules := ?_ }
      · rw [Array.size_push]
        exact room
      · rw [Array.toList_push, List.pairwise_append]
        refine ⟨distinct.rules, List.pairwise_singleton _ _, fun q old p new => ?_⟩
        rw [List.mem_singleton.mp new]
        exact fresh q (Array.mem_toList_iff.mp old)
  | startSymbol n declared => exact distinct
  | startLayout layout admitted outcome => exact distinct
  | refused step e => exact distinct

structure Records (d : Definition) (log : List LogEntry) : Prop where
  terminals : numbered Terminal.mk d.terminals = (.endOfInput, "#EOI") :: log.filterMap LogEntry.terminal?
  layouts : numbered Layout.mk d.layouts = log.filterMap LogEntry.layout?
  nonterminals : numbered Nonterminal.mk d.nonterminals = (.start, "#Start") :: log.filterMap LogEntry.nonterminal?
  rules : numbered ProductionId.rule d.rules = log.filterMap LogEntry.production?

theorem empty_records : empty.Records [] := ⟨rfl, rfl, rfl, rfl⟩

theorem Acts.records {d d' : Definition} {step : Step} {outcome : Except DefinitionError Declared}
    (acts : d.Acts step d' outcome) {log : List LogEntry} (records : d.Records log) :
    d'.Records (log ++ [(step, outcome)]) := by
  obtain ⟨terminals, layouts, nonterminals, rules⟩ := records
  cases acts <;>
    refine ⟨?_, ?_, ?_, ?_⟩ <;>
    simp [numbered_push, terminals, layouts, nonterminals, rules, List.filterMap_append, LogEntry.terminal?,
      LogEntry.layout?, LogEntry.nonterminal?, LogEntry.production?]

theorem Acts.faithful {d d' : Definition} {step : Step} {outcome : Except DefinitionError Declared}
    (acts : d.Acts step d' outcome) (passed : outcome.isOk) : LogEntry.Faithful (step, outcome) := by
  cases acts with
  | refused step e => cases passed
  | _ => exact ⟨rfl, rfl, rfl, rfl⟩

-- Whatever every step keeps, a run of steps keeps, with the log that it leaves.
theorem applyAll_induct (holds : Definition → List LogEntry → Prop)
    (step : ∀ d d' step outcome log, Acts d step d' outcome → holds d log → holds d' (log ++ [(step, outcome)]))
    (d : Definition) (log : List LogEntry) (start : holds d log) (steps : List Step) :
    holds (d.applyAll steps).1 (log ++ steps.zip (d.applyAll steps).2) := by
  induction steps generalizing d log with
  | nil => simpa [applyAll] using start
  | cons s rest ih =>
      have next := ih (d.apply s).1 _ (step _ _ s _ log (apply_acts d s) start)
      rwa [List.append_assoc] at next

theorem length_applyAll (d : Definition) (steps : List Step) : (d.applyAll steps).2.length = steps.length := by
  induction steps generalizing d with
  | nil => rfl
  | cons step rest ih => exact congrArg Nat.succ (ih (d.apply step).1)

theorem faithful_of_applyAll (steps : List Step) (passed : ∀ outcome ∈ (empty.applyAll steps).2, outcome.isOk) :
    ∀ entry ∈ steps.zip (empty.applyAll steps).2, LogEntry.Faithful entry := by
  have told : ∀ entry ∈ steps.zip (empty.applyAll steps).2, entry.2.isOk → LogEntry.Faithful entry := by
    refine applyAll_induct (fun _ log => ∀ entry ∈ log, entry.2.isOk → LogEntry.Faithful entry)
      (fun d d' step outcome log acts before entry member => ?_) empty []
      (fun entry none => absurd none List.not_mem_nil) steps
    rcases List.mem_append.mp member with earlier | last
    · exact before entry earlier
    · obtain rfl := List.mem_singleton.mp last
      exact acts.faithful
  exact fun entry member => told entry member (passed entry.2 (List.of_mem_zip member).2)

end Definition

namespace Grammar

theorem Accepted.distinct {g : Grammar} (accepted : g.Accepted) :
    Distinct g.terminals g.layouts g.nonterminals g.rules := by
  obtain ⟨steps, ended⟩ := accepted
  have told : (Definition.empty.applyAll steps).1.KeepsApart :=
    Definition.applyAll_induct (fun d _ => d.KeepsApart) (fun d d' step outcome log acts => acts.keepsApart) .empty []
      Definition.empty_keepsApart steps
  obtain ⟨start, -, rfl⟩ := finish_declares ended
  exact told

def listed (g : Grammar) : List (ProductionId × Production) :=
  g.productionIds.filterMap fun id => (g.production? id).map (id, ·)

theorem listed_eq (g : Grammar) : g.listed = numbered .rule g.rules ++ [(.accept, g.accept)] := by
  have ids : g.productionIds = (numbered ProductionId.rule g.rules ++ [(ProductionId.accept, g.accept)]).map Prod.fst := by
    have places : (numbered ProductionId.rule g.rules).map Prod.fst = (g.rules.toList.zipIdx.map Prod.snd).map .rule := by
      rw [numbered, List.map_map, List.map_map]
      rfl
    rw [List.map_append, places, List.zipIdx_map_snd, ← List.range_eq_range', Array.length_toList]
    rfl
  rw [listed, ids]
  refine filterMap_lookup _ g.production? fun entry member => ?_
  rcases List.mem_append.mp member with declared | last
  · obtain ⟨⟨p, i⟩, at', rfl⟩ := List.mem_map.mp declared
    simpa [production?] using List.mk_mem_zipIdx_iff_getElem?.mp at'
  · obtain rfl := List.mem_singleton.mp last
    rfl

-- What a grammar holds is what the steps of a log have declared, under the numbers that they answered.
structure Logged (g : Grammar) (log : List LogEntry) : Prop where
  terminals : numbered Terminal.mk g.terminals = (.endOfInput, "#EOI") :: log.filterMap LogEntry.terminal?
  layouts : numbered Layout.mk g.layouts = log.filterMap LogEntry.layout?
  nonterminals : numbered Nonterminal.mk g.nonterminals = (.start, "#Start") :: log.filterMap LogEntry.nonterminal?
  productions : g.listed = log.filterMap LogEntry.production? ++
    [(.accept, ⟨.start, #[.nonterminal g.startSymbol, .terminal .endOfInput], g.startLayout⟩)]

structure Defined (g : Grammar) (steps : List Step) : Prop where
  terminals : g.terminals.toList = "#EOI" :: steps.filterMap Step.terminal?
  layouts : g.layouts.toList = steps.filterMap Step.layout?
  nonterminals : g.nonterminals.toList = "#Start" :: steps.filterMap Step.nonterminal?
  rules : g.rules.toList = steps.filterMap Step.production?

theorem Logged.defined {g : Grammar} {log : List LogEntry} (logged : g.Logged log)
    (faithful : ∀ entry ∈ log, entry.Faithful) : g.Defined (log.map Prod.fst) where
  terminals := by
    rw [← map_snd_numbered Terminal.mk, logged.terminals, List.map_cons,
      LogEntry.map_snd_filterMap log _ _ fun entry member => (faithful entry member).terminal]
  layouts := by
    rw [← map_snd_numbered Layout.mk, logged.layouts,
      LogEntry.map_snd_filterMap log _ _ fun entry member => (faithful entry member).layout]
  nonterminals := by
    rw [← map_snd_numbered Nonterminal.mk, logged.nonterminals, List.map_cons,
      LogEntry.map_snd_filterMap log _ _ fun entry member => (faithful entry member).nonterminal]
  rules := by
    have split := g.listed_eq.symm.trans logged.productions
    obtain ⟨rules, -⟩ := List.append_inj' split rfl
    rw [← map_snd_numbered ProductionId.rule, rules,
      LogEntry.map_snd_filterMap log _ _ fun entry member => (faithful entry member).production]

structure DeclaresParts (g : Grammar) (p : Production) : Prop where
  left : g.Declares (.nonterminal p.left)
  right : ∀ x ∈ p.right, g.Declares x
  layout : ∀ l ∈ p.layout, ∃ name, g.layoutName l = .ok name

structure Orderly (g : Grammar) : Prop where
  terminals : Names ["#EOI"] g.terminals
  layouts : Names [] g.layouts
  nonterminals : Names ["#Start"] g.nonterminals
  -- Rule numbers stay below the one that the augmented production has in 16 bits.
  bounded : g.rules.size ≤ Definition.ruleLimit
  terminalByName : ∀ name t, g.terminalByName? name = some t ↔ g.terminalName t = .ok name
  layoutByName : ∀ name l, g.layoutByName? name = some l ↔ g.layoutName l = .ok name
  nonterminalByName : ∀ name n, g.nonterminalByName? name = some n ↔ g.nonterminalName n = .ok name
  admitted : ∀ id p, g.production? id = some p → id ≠ .accept → g.DeclaresParts p
  apart : ∀ id id' p q, g.production? id = some p → g.production? id' = some q → p.Same q → id = id'
  start : g.Declares (.nonterminal g.startSymbol)
  startLayout : ∀ l ∈ g.startLayout, ∃ name, g.layoutName l = .ok name

theorem terminalName_eq_ok_iff {g : Grammar} {t : Terminal} {name : String} :
    g.terminalName t = .ok name ↔ g.terminals[t.index]? = some name := by
  unfold terminalName
  cases g.terminals[t.index]? <;> simp

theorem layoutName_eq_ok_iff {g : Grammar} {l : Layout} {name : String} :
    g.layoutName l = .ok name ↔ g.layouts[l.index]? = some name := by
  unfold layoutName
  cases g.layouts[l.index]? <;> simp

theorem nonterminalName_eq_ok_iff {g : Grammar} {n : Nonterminal} {name : String} :
    g.nonterminalName n = .ok name ↔ g.nonterminals[n.index]? = some name := by
  unfold nonterminalName
  cases g.nonterminals[n.index]? <;> simp

theorem layoutName_of_bound {g : Grammar} {l : Layout} (bound : l.index < g.layouts.size) :
    ∃ name, g.layoutName l = .ok name :=
  ⟨_, layoutName_eq_ok_iff.mpr (Array.getElem?_eq_getElem bound)⟩

theorem WellFormed.eq_of_same {g : Grammar} (wf : g.WellFormed)
    (distinct : Distinct g.terminals g.layouts g.nonterminals g.rules)
    {id id' : ProductionId} {p q : Production} (found : g.production? id = some p) (found' : g.production? id' = some q)
    (same : p.Same q) : id = id' := by
  by_cases declared : p.left = .start
  · rw [(wf.left_eq_start_iff found).mp declared, (wf.left_eq_start_iff found').mp (same.1 ▸ declared)]
  · cases id with
    | accept => exact absurd ((wf.left_eq_start_iff found).mpr rfl) declared
    | rule i =>
        cases id' with
        | accept => exact absurd (same.1.trans ((wf.left_eq_start_iff found').mpr rfl)) declared
        | rule j => rw [distinct.index_of_same found found' same]

theorem Accepted.orderly {g : Grammar} (accepted : g.Accepted) : g.Orderly := by
  have wf := accepted.wellFormed
  have distinct := accepted.distinct
  refine ⟨distinct.terminals, distinct.layouts, distinct.nonterminals, distinct.bounded, fun name t => ?_, fun name l => ?_,
    fun name n => ?_, fun id p found declared => ?_, fun id id' p q found found' => wf.eq_of_same distinct found found', wf.start,
    fun l member => layoutName_of_bound (wf.startLayout l member)⟩
  · rw [terminalName_eq_ok_iff, ← distinct.terminals.findIdx?_eq_some_iff, terminalByName?]
    cases t
    simp
  · rw [layoutName_eq_ok_iff, ← distinct.layouts.findIdx?_eq_some_iff, layoutByName?]
    cases l
    simp
  · rw [nonterminalName_eq_ok_iff, ← distinct.nonterminals.findIdx?_eq_some_iff, nonterminalByName?]
    cases n
    simp
  · cases id with
    | accept => exact absurd rfl declared
    | rule i =>
        have member : p ∈ g.rules := Array.mem_of_getElem? found
        exact ⟨wf.left p member, wf.right p member, fun l among => layoutName_of_bound (wf.layout p member l among)⟩

theorem logged_of_steps (steps : List Step) {g : Grammar} (ended : (Definition.empty.applyAll steps).1.finish = .ok g) :
    g.Logged (steps.zip (Definition.empty.applyAll steps).2) := by
  have records : (Definition.empty.applyAll steps).1.Records (steps.zip (Definition.empty.applyAll steps).2) :=
    Definition.applyAll_induct Definition.Records (fun d d' step outcome log acts => acts.records) .empty []
      Definition.empty_records steps
  obtain ⟨start, -, rfl⟩ := finish_declares ended
  refine ⟨records.terminals, records.layouts, records.nonterminals, ?_⟩
  rw [listed_eq, records.rules]
  rfl

theorem defined_of_define (steps : List Step) {g : Grammar} (defined : define steps = .ok g) : g.Defined steps := by
  obtain ⟨ended, passed⟩ := finish_of_define steps defined
  have told := (logged_of_steps steps ended).defined (Definition.faithful_of_applyAll steps passed)
  rwa [List.map_fst_zip (Nat.le_of_eq (Definition.length_applyAll _ steps).symm)] at told

theorem grammar_of_steps (steps : List Step) {g : Grammar} (ended : (Definition.empty.applyAll steps).1.finish = .ok g) :
    g.Logged (steps.zip (Definition.empty.applyAll steps).2) ∧ g.Orderly :=
  ⟨logged_of_steps steps ended, Accepted.orderly ⟨steps, ended⟩⟩

def stumbling : List Step :=
  [.nonterminal "#Start", .production [] ⟨1⟩ #[], .startSymbol .start] ++ Example.composed.steps ++
    [.terminal "IDENT", .production [] .start #[Example.t 1], .production [] ⟨1⟩ #[.terminal .endOfInput],
      .production [⟨2⟩] ⟨1⟩ #[Example.t 1], .production [] ⟨1⟩ #[Example.n 1, Example.n 2], .startLayout [⟨0⟩, ⟨9⟩, ⟨1⟩]]

theorem grammar_of_steps_stumbling : (Definition.empty.applyAll stumbling).1.finish = .ok composed ∧
    composed.Logged (stumbling.zip (Definition.empty.applyAll stumbling).2) ∧ composed.Orderly := by
  have ended : (Definition.empty.applyAll stumbling).1.finish = .ok composed := by decide +kernel
  exact ⟨ended, grammar_of_steps stumbling ended⟩

end Grammar

end Lookahead
