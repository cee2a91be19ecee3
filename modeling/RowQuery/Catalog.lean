import RowQuery.Member.Predefined

/-!
The declared classes. A class may extend one that was declared before it; its objects hold the
inherited fields first and its own after them, so a field has the same position in every descendant.
Members are looked up from the class itself upward and at last among those of every type.

The host describes a class call by call. The constructor that takes a value for each field is added by
one of these calls, and knows only what was said before it.
-/

namespace RowQuery

/-- A class declaration. Its members are those of its fields, then the listed ones. -/
structure ClassDecl where
  name : String
  base : Option Class
  fields : List (String × Ty)
  properties : List Property
  methods : List Method
  constructors : List Method
  indexers : List Method
  /-- The type of the items that objects yield, if they can be iterated. -/
  element : Option Ty

/-- The declarations, the latest first. The number of a declaration is the number of those before it. -/
structure Catalog where
  decls : List ClassDecl

namespace Catalog

def empty : Catalog := ⟨[]⟩

/-- Adds a declaration; the second part refers to it. -/
def declare (cat : Catalog) (d : ClassDecl) : Catalog × Class :=
  (⟨d :: cat.decls⟩, .declared cat.decls.length d.name)

def declIn : List ClassDecl → Nat → Option ClassDecl
  | [], _ => none
  | d :: earlier, id => if id = earlier.length then some d else declIn earlier id

/-- The declaration of a class. -/
def decl? (cat : Catalog) : Class → Option ClassDecl
  | .declared id _ => declIn cat.decls id
  | _ => none

/-- A class and those it extends, nearest first. A class extends only one declared before it. -/
def lineageIn : List ClassDecl → Class → List Class
  | [], c => [c]
  | d :: earlier, c =>
    match c with
    | .declared id name =>
      if id = earlier.length then
        c :: (match d.base with
          | some base => lineageIn earlier base
          | none => [])
      else lineageIn earlier (.declared id name)
    | c => [c]

/-- A class and those it extends, nearest first. -/
def lineage (cat : Catalog) (c : Class) : List Class := lineageIn cat.decls c

/-- Whether a class is another one or extends it, directly or not. -/
def isSubclass (cat : Catalog) (c d : Class) : Bool := (cat.lineage c).contains d

/-- The fields that a class adds to those it inherits. -/
def ownFields (cat : Catalog) (c : Class) : List (String × Ty) :=
  match c with
  | .shape fields => fields.toList
  | c => ((cat.decl? c).map (·.fields)).getD []

/-- All fields of a class in the order of their positions. -/
def fields (cat : Catalog) (c : Class) : List (String × Ty) :=
  ((cat.lineage c).reverse.map cat.ownFields).flatten

/-- The names of the fields of each class. -/
def layout (cat : Catalog) : Layout := fun c => (cat.fields c).map (·.1)

/-- The position of the field of exactly that name. -/
def fieldIndex? (cat : Catalog) (c : Class) (name : String) : Option Nat :=
  (cat.layout c).findIdx? (· == name)

/-- The type of the items of a class: its own, or the nearest inherited one. -/
def element? (cat : Catalog) (c : Class) : Option Ty :=
  (cat.lineage c).findSome? fun level => (cat.decl? level).bind (·.element)

/-- The properties that read the own fields of a class. -/
def fieldProperties (cat : Catalog) (c : Class) : List Property :=
  let own := cat.ownFields c
  let offset := (cat.fields c).length - own.length
  own.zipIdx.map fun ((name, ty), i) => ⟨name, ty, false, .field (offset + i)⟩

end Catalog

namespace ClassDecl

/-- What the host can say of a class. -/
inductive Call where
  | base (c : Class)
  | field (name : String) (ty : Ty)
  | property (name : String) (ty : Ty) (run : Layout → Value → Except String Value)
  | constant (name : String) (ty : Ty) (value : Value)
  | method (name : String) (params : List Ty) (result : Ty)
      (run : Layout → Value → List Value → Except String Value)
  | staticMethod (name : String) (params : List Ty) (result : Ty)
      (run : Layout → List Value → Except String Value)
  | constructor (params : List Ty) (run : Layout → List Value → Except String Value)
  | fieldConstructor
  | indexer (params : List Ty) (result : Ty) (run : Layout → Value → List Value → Except String Value)
  | element (ty : Ty)

/-- A declaration of which only the name is known. -/
def new (name : String) : ClassDecl := ⟨name, none, [], [], [], [], [], none⟩

/-- The fields that are known so far: those of the base, if one was named, and then the own ones. -/
def allFields (cat : Catalog) (d : ClassDecl) : List (String × Ty) :=
  (d.base.map cat.fields).getD [] ++ d.fields

/-- The constructor that takes a value for each field known so far. -/
def fieldConstructor (cat : Catalog) (d : ClassDecl) : Method :=
  .constructor ((d.allFields cat).map (·.2)) (.builtin .objectNew)

/-- A declaration after one more call. -/
def add (cat : Catalog) (d : ClassDecl) : Call → ClassDecl
  | .base c => { d with base := some c }
  | .field name ty => { d with fields := d.fields ++ [(name, ty)] }
  | .property name ty run => { d with properties := d.properties ++ [⟨name, ty, false, .native run⟩] }
  | .constant name ty value => { d with properties := d.properties ++ [⟨name, ty, true, .constant value⟩] }
  | .method name params result run =>
    { d with methods := d.methods ++ [.ofInstance name params result run] }
  | .staticMethod name params result run =>
    { d with methods := d.methods ++ [.ofStatic name params result run] }
  | .constructor params run => { d with constructors := d.constructors ++ [.ofConstructor params run] }
  | .fieldConstructor => { d with constructors := d.constructors ++ [d.fieldConstructor cat] }
  | .indexer params result run => { d with indexers := d.indexers ++ [.ofIndexer params result run] }
  | .element ty => { d with element := some ty }

/-- The declaration that calls make, one after the other. -/
def ofCalls (cat : Catalog) (name : String) (calls : List Call) : ClassDecl :=
  calls.foldl (add cat) (new name)

/-- The calls for a class that has only fields and the constructor for them. -/
def Call.ofFields (fields : List (String × Ty)) : List Call :=
  fields.map (fun (name, ty) => .field name ty) ++ [.fieldConstructor]

end ClassDecl

namespace Catalog

/-- Adds the class that calls describe; the second part refers to it. -/
def build (cat : Catalog) (name : String) (calls : List ClassDecl.Call) : Catalog × Class :=
  cat.declare (.ofCalls cat name calls)

/-- The members declared by a class itself. -/
def members (cat : Catalog) (c : Class) : Members :=
  match c with
  | .math => Predefined.math
  | .convert => Predefined.convert
  | .shape fields => { Members.empty with
      properties := cat.fieldProperties c
      constructors := (ClassDecl.ofCalls cat "" (ClassDecl.Call.ofFields fields.toList)).constructors }
  | .declared _ _ =>
    match cat.decl? c with
    | none => .empty
    | some d =>
      { properties := cat.fieldProperties c ++ d.properties
        methods := d.methods
        constructors := d.constructors
        indexers := d.indexers }

/-- The levels of members that a type declares, nearest first. -/
def declaredMembers (cat : Catalog) (ty : Ty) : List Members :=
  match ty with
  | .cls c => (cat.lineage c).map cat.members
  | ty => (Predefined.ofType? ty).toList

/-- The levels of members to search for a type; the last one is shared by all types. -/
def memberChain (cat : Catalog) (ty : Ty) : List Members :=
  cat.declaredMembers ty ++ [Predefined.shared]

/-- The nearest property of that name, in any case. -/
def property? (cat : Catalog) (ty : Ty) (name : String) (isStatic : Bool) : Option Property :=
  (cat.memberChain ty).findSome? (·.property? name isStatic)

/-- The nearest static method of that name, in any case. -/
def staticMethod? (cat : Catalog) (ty : Ty) (name : String) : Option Method :=
  (cat.memberChain ty).findSome? fun m => (m.methodsNamed name true).head?

/-- The constructors of the nearest level. -/
def constructors (cat : Catalog) (ty : Ty) : List Method :=
  match cat.memberChain ty with
  | m :: _ => m.constructors
  | [] => []

/-- Whether a type declares a method of that name itself; those shared by all types do not count. -/
def declaresMethod (cat : Catalog) (ty : Ty) (name : String) : Bool :=
  (cat.declaredMembers ty).any fun m => m.methods.any fun x => Text.sameName x.name name

/-- The type of the items of a type whose values can be iterated. -/
def elementType? (cat : Catalog) : Ty → Option Ty
  | .list element => some element
  | .grouping _ element => some element
  | .cls c => cat.element? c
  | _ => none

/-- The items of a value that can be iterated. -/
def items? (cat : Catalog) : Value → Option (List Value)
  | .list items => some items
  | .group _ items => some items
  | .object c _ items => if (cat.element? c).isSome then some items else none
  | _ => none

/-- Whether values of the second type can stand where the first is asked for, as they are. -/
def isAssignable (cat : Catalog) (target source : Ty) : Bool :=
  match target, source with
  | .object, _ => true
  | .cls t, .cls s => cat.isSubclass s t
  | t, s => t == s

end Catalog

/-- The types that expressions may name, by their names in small letters. -/
structure Context where
  named : List (String × Ty)

namespace Context

def empty : Context := ⟨[]⟩

/-- The name by which a type can be catalogued. -/
def nameOf? : Ty → Option String
  | .enum e => some e.name
  | .cls c => some (c.text .empty)
  | _ => none

/-- The type of that name, in any case. -/
def lookup? (ctx : Context) (name : String) : Option Ty := ctx.named.lookup (Text.fold name)

/-- Adds a type under its name, unless the name is taken or the type has none. -/
def insert (ctx : Context) (ty : Ty) : Context :=
  match nameOf? ty with
  | none => ctx
  | some name => if (ctx.lookup? name).isSome then ctx else ⟨ctx.named ++ [(Text.fold name, ty)]⟩

/-- The context of a list of types; of several with one name the first counts. -/
def ofTypes (types : List Ty) : Context := types.foldl insert empty

def size (ctx : Context) : Nat := ctx.named.length

/-- The names of a context, in order, for inspection. -/
def description (ctx : Context) : String :=
  let names := (ctx.named.map (·.1)).mergeSort
  "CompileContext \x7b types: [" ++ ", ".intercalate (names.map fun n => "\"" ++ n ++ "\"") ++
    "] \x7d"

end Context

/-- The types that a process has installed as the default ones, once it has. -/
structure Configuration where
  types : Option (List Ty)

inductive ConfigError where
  | alreadyInitialized

def ConfigError.message : ConfigError → String
  | alreadyInitialized => "the default custom type provider is already set"

namespace Configuration

def initial : Configuration := ⟨none⟩

/-- Installs the default types, which can be done once. -/
def install (config : Configuration) (types : List Ty) : Except ConfigError Configuration :=
  match config.types with
  | some _ => .error .alreadyInitialized
  | none => .ok ⟨some types⟩

/-- The context of the default types, which is empty until they are installed. -/
def context (config : Configuration) : Context := (config.types.map .ofTypes).getD .empty

end Configuration

end RowQuery
