import RowQuery.Proofs.FilterComplement
import RowQuery.Proofs.Receivers

/-!
Conditions on the items of a sequence. In the arguments of an operation on items the implicit parameter is the item,
and names stand for the parameters of the row as before. A text that is a condition there is an expression of the row
and one item more. In front of any sequence it is read as this expression, with the slot of the item and all later ones
moved up past those of the sequence, and it is evaluated for each item as by itself.
-/

namespace RowQuery

open Parse Grammar Lexeme
open Eval (Answers)

/-- The types of slots with one more after them. -/
theorem SlotTypes.ofTypes_concat (types : List Ty) (t : Ty) :
    ofTypes (types ++ [t]) = (ofTypes types).bind types.length t := by
  funext n
  rcases Nat.lt_trichotomy n types.length with hlt | rfl | hgt
  · rw [ofTypes, List.getElem?_append_left hlt, bind, if_neg (Nat.ne_of_lt hlt)]
    rfl
  · rw [ofTypes, List.getElem?_concat_length, bind, if_pos rfl]
  · have hnone : (types ++ [t])[n]? = none := by
      rw [List.getElem?_eq_none]
      rw [List.length_append, List.length_singleton]
      omega
    rw [ofTypes, hnone, bind, if_neg (Nat.ne_of_gt hgt), ofTypes, List.getElem?_eq_none (Nat.le_of_lt hgt)]

/-- What an operation on items evaluates for each of them. -/
def Catalog.evalItem (cat : Catalog) (slot : Nat) (body : Expr) (x : Value) : Eval Value := do
  modify (·.bind slot x)
  cat.eval body

namespace Environment

/-- The scope of the arguments of an operation on items. -/
def itemScope (env : Environment) (params : List ParamDecl) (symbols : Symbols) (item : Ty) (slot : Nat) : Scope :=
  { env.scope (bindParams params) symbols with it := some (.param item slot) }

/-- The parameters of a row, and an item after them. -/
def itemParams (params : List ParamDecl) (item : Ty) : List Param := bindParams params ++ [⟨none, item, params.length⟩]

theorem length_itemParams (params : List ParamDecl) (item : Ty) :
    (itemParams params item).length = params.length + 1 := by
  rw [itemParams, List.length_append, length_bindParams, List.length_singleton]

theorem itemParams_slots (params : List ParamDecl) (item : Ty) :
    (itemParams params item).map (·.slot) = List.range (itemParams params item).length := by
  rw [length_itemParams, itemParams, List.map_append, bindParams_slots, length_bindParams, List.range_succ]
  rfl

theorem itemParams_types (params : List ParamDecl) (item : Ty) :
    (itemParams params item).map (·.ty) = params.map (·.ty) ++ [item] := by
  rw [itemParams, List.map_append, bindParams_types]
  rfl

/-- A text compiles to a condition on a row and an item: the item is implicit, and the parameters of the row go by
their names. Phrases are nested so many times at most. -/
def CompilesItem (depth : Nat) (env : Environment) (params : List ParamDecl) (item : Ty) (text : String)
    (args : List Argument) (l : Lambda) : Prop :=
  l.params = itemParams params item ∧ l.body.ty = .boolean ∧ ∃ symbols shapes,
    Symbols.ofText (bindParams params) args = .ok symbols ∧
      ReadsWhole (env.itemScope params symbols item params.length) (params.length + 1) text
        (Reads (level depth).expression) shapes l.body l.slots

/-- Where the item has the given slot, the slots of a condition are moved there. -/
def itemBody (params : List ParamDecl) (l : Lambda) (slot : Nat) : Expr :=
  l.body.mapSlots (raise params.length (slot - params.length))

theorem itemScope_sees {env : Environment} {params : List ParamDecl} {args : List Argument} {symbols : Symbols}
    (h : Symbols.ofText (bindParams params) args = .ok symbols) (item : Ty) :
    (env.itemScope params symbols item params.length).Sees (· < params.length + 1) := by
  have hsees : (env.scope (bindParams params) symbols).Sees (· < (bindParams params).length) :=
    scope_sees (bindParams_slots params) h
  rw [length_bindParams] at hsees
  refine ⟨?_, fun name e he => ?_⟩
  · rintro e ⟨⟩
    exact ⟨item, params.length, rfl, Nat.lt_succ_self _⟩
  · exact (hsees.symbols name e he).imp_left fun ⟨t, n, heq, hn⟩ => ⟨t, n, heq, Nat.lt_succ_of_lt hn⟩

theorem itemScope_sound (env : Environment) {types : List Ty} (hcontext : env.context = Context.ofTypes types)
    {params : List ParamDecl} {args : List Argument} {symbols : Symbols}
    (h : Symbols.ofText (bindParams params) args = .ok symbols)
    (hargs : ∀ arg ∈ args, ∀ sym ∈ arg.symbols, sym.Sound env.catalog fun _ => none) (item : Ty) :
    (env.itemScope params symbols item params.length).Sound env.catalog
      (.ofTypes ((itemParams params item).map (·.ty))) := by
  have hscope := scope_sound hcontext (bindParams_slots params) h hargs
  rw [bindParams_types] at hscope
  have hlength : (params.map (·.ty)).length = params.length := List.length_map _
  have hfree : SlotTypes.ofTypes (params.map (·.ty)) params.length = none :=
    List.getElem?_eq_none (Nat.le_of_eq hlength)
  rw [itemParams_types, SlotTypes.ofTypes_concat, hlength]
  exact hscope.bind hfree item

namespace CompilesItem

variable {env : Environment} {decls : List ParamDecl} {item : Ty} {text : String} {args : List Argument} {l : Lambda}
  {depth n : Nat}

theorem length_params (h : env.CompilesItem depth decls item text args l) : l.params.length = decls.length + 1 := by
  rw [h.1, length_itemParams]

theorem derives (h : env.CompilesItem depth decls item text args l) :
    ∃ symbols, Symbols.ofText (bindParams decls) args = .ok symbols ∧
      Derives (env.itemScope decls symbols item decls.length) (decls.length + 1) l.slots [l.body] := by
  obtain ⟨-, -, symbols, shapes, hsymbols, s, s', hadvance, hread, -, hslots⟩ := h
  have hderives := ((level_derived depth).expression hread).1
  rw [(Reading.ofText_advance hadvance).2.2.2.1, hslots] at hderives
  exact ⟨symbols, hsymbols, hderives⟩

theorem disciplined (h : env.CompilesItem depth decls item text args l) : l.Disciplined := by
  obtain ⟨symbols, hsymbols, hderives⟩ := h.derives
  have huse := hderives.slotUse (itemScope_sees hsymbols item)
  rw [← h.length_params] at huse
  refine .of_slotUse ?_ ?_ huse
  · rw [h.1]
    exact itemParams_slots decls item
  · rw [h.length_params]
    exact hderives.le

/-- With arguments that may be supplied, a condition on items is safe. -/
theorem safe {cat : Catalog} {types : List Ty} (hcat : cat.WellBehaved) (hargs : ∀ arg ∈ args, arg.Admissible cat)
    (h : (⟨cat, .ofTypes types⟩ : Environment).CompilesItem depth decls item text args l) : l.Safe cat := by
  obtain ⟨symbols, hsymbols, hderives⟩ := h.derives
  have hsound := itemScope_sound ⟨cat, .ofTypes types⟩ rfl hsymbols (fun arg harg => (hargs arg harg).sound hcat) item
  have hlength := h.length_params
  rw [← h.1] at hsound
  rw [← hlength] at hderives
  have hresult : Typing.result cat l.body none = .ok l.body := rfl
  refine Lambda.safe_of_derives hcat ?_ hsound hderives hresult
  rw [h.1]
  exact itemParams_slots decls item

/-- The condition on an item of the right type is true or false, or it fails. -/
theorem truth {cat : Catalog} {types : List Ty} (hcat : cat.WellBehaved) (hargs : ∀ arg ∈ args, arg.Admissible cat)
    (h : (⟨cat, .ofTypes types⟩ : Environment).CompilesItem depth decls item text args l)
    {row : List Value} {x v : Value}
    (hrow : cat.conformAll row (decls.map (·.ty))) (hx : cat.conforms x item)
    (hv : cat.evalLambda l (row ++ [x]) = .ok v) : ∃ b, v = .boolean b := by
  have hconforms : cat.conformAll (row ++ [x]) l.paramTypes := by
    rw [Lambda.paramTypes, h.1, itemParams_types, Catalog.conformAll_iff]
    exact List.rel_append (Catalog.conformAll_iff.mp hrow) (.cons hx .nil)
  have hyields := h.safe hcat hargs (row ++ [x]) hconforms
  rw [hv, Lambda.resultType, h.2.1] at hyields
  exact Catalog.conforms_boolean.mp hyields

/-- A condition on items is read in front of what does not continue it, wherever the item has its slot. -/
theorem takes (h : env.CompilesItem depth decls item text args l) (hn : depth ≤ n) :
    ∃ (symbols : Symbols) (ls : List Lexeme), Symbols.ofText (bindParams decls) args = .ok symbols ∧
      Scans text.toList ls ∧ ∀ {slot : Nat} {rest : List Lexeme}, decls.length ≤ slot → Closes rest → Stops 0 rest →
        ∀ made, ∃ made', Takes (level n).expression (env.itemScope decls symbols item slot) (slot + 1, made) ls
          (itemBody decls l slot)
          (l.slots + (slot - decls.length), made') rest := by
  obtain ⟨-, -, symbols, shapes, hsymbols, htext⟩ := h
  obtain ⟨ls, grow, hscans, hembeds⟩ := htext.embeds Expr.mapSlots_id (expression_portable (Nat.le_refl _))
    (expression_portable hn) (.nil 0)
  refine ⟨symbols, ls, hsymbols, hscans, fun {slot rest} hslot hcloses hstops made => ⟨grow made, ?_⟩⟩
  intro t ht hmade
  obtain ⟨hslots, rfl⟩ := Prod.mk.inj hmade
  have hshift : t.slots - (decls.length + 1) = slot - decls.length := by omega
  have hsees : (env.scope (bindParams decls) symbols).Sees (· < (bindParams decls).length) :=
    scope_sees (bindParams_slots decls) hsymbols
  rw [length_bindParams] at hsees
  have hkeeps : (env.itemScope decls symbols item decls.length).Keeps decls.length (t.slots - (decls.length + 1)) :=
    hsees.keeps _
  obtain ⟨t', hread, hahead, hslots', hshapes⟩ := hembeds (Nat.le_succ _) hkeeps ht (by omega) hcloses hstops
  rw [hshift] at hread hslots'
  have hscope : (env.itemScope decls symbols item decls.length).raised decls.length (slot - decls.length) =
      env.itemScope decls symbols item slot := by
    have hmoved : raise decls.length (slot - decls.length) decls.length = slot := by
      rw [raise, if_neg (Nat.lt_irrefl _)]
      omega
    exact congrArg (env.itemScope decls symbols item) hmoved
  rw [hscope] at hread
  exact ⟨t', hread, hahead, Prod.ext hslots' hshapes⟩

/-- For each item, the condition comes to what it comes to by itself, and the row stays in place. -/
theorem answers (cat : Catalog) (h : env.CompilesItem depth decls item text args l) {row : List Value}
    (hrow : row.length = decls.length) {slot : Nat} (hslot : decls.length ≤ slot) (x : Value) :
    Answers (·.StartWith row) (cat.evalItem slot (itemBody decls l slot) x) (cat.evalLambda l (row ++ [x])) := by
  intro t ht
  have hstart : (t.bind slot x).StartWith row := ht.bind (by omega) x
  rw [Catalog.evalItem, Eval.exec_bind, Eval.exec_modify]
  refine h.disciplined.exec_moved cat (raise_injective _ _) ?_ (fun i hi => ?_) hstart fun b hb => ?_
  · rw [List.length_append, List.length_singleton, hrow, h.length_params]
  · rw [List.length_append, List.length_singleton] at hi
    rcases Nat.lt_or_ge i decls.length with hlt | hge
    · rw [raise_of_lt hlt, hstart i (by omega), List.getElem?_append_left (by omega)]
    · obtain rfl : i = row.length := by omega
      rw [raise, if_neg (by omega), List.getElem?_concat_length,
        show row.length + (slot - decls.length) = slot by omega]
      exact Slots.getElem?_bind_self t slot x
  · have hle := h.disciplined.le_binders b hb
    rw [h.length_params] at hle
    rw [raise]
    split <;> omega

end CompilesItem

/-- Where the row has no named parameters, a condition over items alone is one on the row and an item. -/
theorem CompilesWithin.item {env : Environment} {depth : Nat} {element item : Ty} {text : String}
    {args : List Argument} {l : Lambda} (h : env.CompilesWithin depth [⟨none, item⟩] (some .boolean) text args l) :
    env.CompilesItem depth [⟨none, element⟩] item text args
      ⟨itemParams [⟨none, element⟩] item, l.body.mapSlots (raise 0 1), l.slots + 1⟩ := by
  obtain ⟨⟨shapes, h⟩, hty⟩ := h.condition
  obtain ⟨hparams, body, ⟨symbols, hsymbols, hwhole⟩, hresult⟩ := Environment.compileWithin_eq_ok.mp h
  cases hresult
  rw [hparams] at hsymbols hwhole
  obtain ⟨ls, grow, hscans, hembeds⟩ := hwhole.embeds Expr.mapSlots_id (expression_portable (Nat.le_refl _))
    (expression_portable (Nat.le_refl _)) (.nil 0)
  have hsymbols' : Symbols.ofText (bindParams [⟨none, element⟩]) args = .ok symbols := hsymbols
  obtain ⟨t, ht, hahead, hmade⟩ := hscans.begins_at (env.itemScope [⟨none, element⟩] symbols item 1) 2 .empty
  obtain ⟨hslots, hshapes⟩ := Prod.mk.inj hmade
  rw [← List.append_nil ls] at hahead
  have hshift : t.slots - (bindParams [⟨none, item⟩]).length = 1 := by
    rw [hslots]
    rfl
  obtain ⟨t', hread, hahead', hslots', -⟩ := hembeds (Nat.zero_le _) (scope_keeps hsymbols _ _) hahead
    (by rw [hslots]; exact Nat.le_succ 1) (.of_first (by decide)) (.nil 0)
  rw [hshift] at hread hslots'
  refine ⟨rfl, ?_, symbols, .empty, hsymbols', t, t', ht, hread, hahead'.shows, hslots'⟩
  rw [Expr.ty_substitute, hty]

end Environment

end RowQuery
