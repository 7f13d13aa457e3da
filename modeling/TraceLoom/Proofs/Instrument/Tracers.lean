import TraceLoom.Proofs.Execution.World
import TraceLoom.Proofs.Script.Proper

/-!
The form of what instrumentation inserts.  An inserted call of the recorder has arguments that
build traces, and these are made of constructors of plain traces, generated names and data.
-/

namespace TraceLoom.Instrument

open Script

/-- The constructors of traces that inserted expressions call, but for numbers. -/
def builders : List String :=
  ["boolean", "string", "identifier", "from", "get", "binop", "op1", "clos", "obj", "array",
    "index", "methodCall", "primApp"]

/-- The operations of the recorder that inserted statements call for their effect. -/
def recordings : List String :=
  ["newTrace", "exitBlock", "traceLet", "traceSet", "tracePrimApp", "traceIfTrue", "traceIfFalse",
    "traceWhile", "traceLoop", "traceLabel", "traceBreak", "traceFunctionCall"]

variable (datum : Expr → Prop)

/-- An expression that builds a trace, or an argument of one: the flag says whether only traces
will do. -/
inductive Tracer : Bool → Expr → Prop
  | undefined {strict : Bool} {pos npos : Position} :
      Tracer strict (.member pos (.name npos standard.options.expBinding) "undefined_")
  | bound {strict : Bool} {pos : Position} {n : String} (name : Generated n) :
      Tracer strict (.name pos n)
  | number {strict : Bool} {pos mpos npos : Position} {e : Expr} (h : datum e) :
      Tracer strict
        (.call pos (.member mpos (.name npos standard.options.expBinding) "number") [e])
  | build {strict : Bool} {pos mpos npos : Position} {builder : String} {args : List Expr}
      (mem : builder ∈ builders) (all : ∀ a ∈ args, Tracer false a) :
      Tracer strict
        (.call pos (.member mpos (.name npos standard.options.expBinding) builder) args)
  | string {pos : Position} {s : String} : Tracer false (.string pos s)
  | boolean {pos : Position} {b : Bool} : Tracer false (.boolean pos b)
  | list {pos : Position} {items : List Expr} (all : ∀ e ∈ items, Tracer true e) :
      Tracer false (.array pos items)
  | record {pos : Position} {entries : List (String × Expr)}
      (all : ∀ entry ∈ entries, Tracer true entry.2) : Tracer false (.object pos entries)

/-- A call of an operation of the recorder. -/
inductive IsRecording : String → List Expr → Expr → Prop
  | intro {operation : String} {args : List Expr} {pos mpos tpos npos : Position} :
      IsRecording operation args (.call pos (.member mpos
        (.member tpos (.name npos standard.options.callbacksBinding) "trace") operation) args)

/-- A statement that instrumentation inserts behind the import of the modules. -/
inductive Inserted : Stmt → Prop
  | record {pos : Position} {operation : String} {args : List Expr} {e : Expr}
      (mem : operation ∈ recordings) (all : ∀ a ∈ args, Tracer datum false a)
      (call : IsRecording operation args e) : Inserted (.expr pos e)
  | test {pos : Position} {n : String} {e : Expr} (name : IsTest n) (value : Tracer datum true e) :
      Inserted (.declare pos .ofLet [(.name n, some e)])
  | prologue {pos spos : Position} {names : List String} {label : String} {arity e : Expr}
      (generated : ∀ n ∈ names, Generated n) (count : datum arity)
      (call : IsRecording "traceFunctionBody" [.string spos label, arity] e) :
      Inserted (.declare pos .ofLet [(.array names, some e)])

variable {datum} in
/-- A trace may stand where other arguments may. -/
theorem Tracer.loosen {strict : Bool} {e : Expr} (h : Tracer datum true e) :
    Tracer datum strict e := by
  cases h with
  | undefined => exact .undefined
  | bound name => exact .bound name
  | number h => exact .number h
  | build mem all => exact .build mem all

/-! ## Numbers -/

/-- A number as it stands in a program. -/
def IsNumber (e : Expr) : Prop :=
  ∃ pos x, e = .number pos x

/-- What a written number is read as. -/
inductive ReadNumber : Expr → Prop
  | number {pos : Position} {x : Float} : ReadNumber (.number pos x)
  | name {pos : Position} {n : String} (h : n = "NaN" ∨ n = "Infinity") : ReadNumber (.name pos n)
  | neg {pos : Position} {e : Expr} (h : ReadNumber e) : ReadNumber (.unary pos .neg e)

/-! ## Programs -/

theorem isReserved_of_not_hidden {n : String} (h : ¬ Hidden n) :
    standard.options.isReserved n = false :=
  Bool.eq_false_iff.mpr fun hreserved => h (.inl hreserved)

/-- The vocabulary of what the text of an instrumented program is read as. -/
def reread : Vocabulary where
  own n := ¬ Hidden n
  self n := standard.options.isReserved n = false
  label _ := True
  property _ := True
  inserted := Inserted ReadNumber
  self_of_own h := isReserved_of_not_hidden h
  label_of_own _ := trivial
  not_block := nofun
  not_function := nofun

/-- The statement that imports a module. -/
inductive IsImport (binding path : String) : Stmt → Prop
  | intro {pos cpos npos spos : Position} : IsImport binding path
      (.declare pos .ofLet [(.name binding, some (.call cpos (.name npos "require")
        [.string spos path]))])

/-- An instrumented program: the modules, the start of the trace, and what is proper. -/
inductive IsInstrumented (V : Vocabulary) : Program → Prop
  | intro {exp cb : Stmt} {pos : Position} {newTrace : Expr} {body : List Stmt}
      (builder : IsImport standard.options.expBinding standard.options.expModule exp)
      (callbacks : IsImport standard.options.callbacksBinding standard.options.callbacksModule cb)
      (start : IsRecording "newTrace" [] newTrace) (proper : Stmt.ProperList V body) :
      IsInstrumented V (exp :: cb :: .expr pos newTrace :: body)

end TraceLoom.Instrument
