import FlightGen.Artifact.Bundle
import FlightGen.Artifact.Line

/-! The C++ header of a component: the record types it uses and the declaration of its
class. -/

namespace FlightGen

open Line (code note noted blank indent enclose separated)

def Scalar.cppType : Scalar → String
  | float => "F64"
  | bool => "bool"

def DataType.cppType : DataType → String
  | scalar s => s.cppType
  | record ident => ident

/-- The zero value as an initializer. -/
def Scalar.zeroLiteral (s : Scalar) : String :=
  s.zero.literal

/-- A string literal; quotes and backslashes are escaped. -/
def cppString (text : String) : String :=
  let escape (c : Char) : List Char := if c = '"' || c = '\\' then ['\\', c] else [c]
  String.ofList ('"' :: text.toList.flatMap escape ++ ['"'])

/-- The head of the method of a routine, behind the qualifier of its class. -/
def Routine.signature (r : Routine) (qualifier : String) : String :=
  let result := (r.outputs.head?.map (·.type.cppType)).getD "void"
  let parameters := r.inputs.map fun s => "const " ++ s.type.cppType ++ "& " ++ s.ident
  result ++ " " ++ qualifier ++ r.ident ++ "(" ++ ", ".intercalate parameters ++ ")"

/-- Lines inside nested namespaces. -/
def inNamespaces (namespaces : List String) (body : List Line) : List Line :=
  namespaces.foldr (fun name inner =>
    enclose (code ("namespace " ++ name ++ " \x7b")) inner
      (noted "\x7d" ("end namespace " ++ name))) body

/-- What a file of a component says first about it. -/
def titleLines (m : Machine) : List Line :=
  [note ("Component: " ++ m.component.raw), note ("StateMachine: " ++ m.name), blank]

/-- The parameters that every command handler has. -/
def handlerParameters : List Line :=
  [code "    const FwOpcodeType opCode,", code "    const U32 cmdSeq"]

namespace Header

/-- A head that introduces lines, if there are any. -/
def titled (title : String) : List Line → List Line
  | [] => []
  | lines => [blank, note title] ++ lines

def recordConstructor (r : RecordType) : String :=
  let inits := r.fields.map fun f => f.name.ident ++ "(" ++ f.scalar.zeroLiteral ++ ")"
  match inits with
  | [] => r.name.ident ++ "() \x7b\x7d"
  | inits => r.name.ident ++ "() : " ++ ", ".intercalate inits ++ " \x7b\x7d"

/-- A record type. Components share it, so that it has an include guard of its own. -/
def recordLines (r : RecordType) : List Line :=
  let included := r.name.ident.toUpper ++ "_RECORD_DEFINED"
  let fields := r.fields.map fun f => code (f.scalar.cppType ++ " " ++ f.name.ident ++ ";")
  [code ("#ifndef " ++ included), code ("#define " ++ included)] ++
    enclose (code ("struct " ++ r.name.ident ++ " \x7b"))
      (fields ++ [blank, code (recordConstructor r)]) (code "\x7d;") ++
    [noted "#endif" included]

def handlerLines (c : Machine.Command) : List Line :=
  [code ("void " ++ c.handler ++ "(")] ++ handlerParameters ++ [code ") override;"]

def publicLines (b : Bundle) : List Line :=
  [code (b.className ++ "(const char* const compName);"),
    code ("~" ++ b.className ++ "();"),
    blank,
    code "void initializeStateMachine();",
    code "void processStateMachine();",
    code "void schedIn_handler(const NATIVE_INT_TYPE portNum, NATIVE_UINT_TYPE context);",
    blank,
    note "Command handlers"] ++
  b.machine.commands.flatMap handlerLines

def stateLines (m : Machine) : List Line :=
  enclose (code "enum StateMachineStates \x7b")
    (separated (m.states.map fun s => s.constant ++ " = " ++ toString s.value.toNat))
    (code "\x7d;")

def memberLines (m : Machine) : List Line :=
  [code "StateMachineStates m_currentState;", code "bool m_stateMachineActive;"] ++
    m.attributes.map fun a => code (a.scalar.cppType ++ " " ++ memberName a.ident ++ ";")

def privateLines (p : Profile) (b : Bundle) : List Line :=
  stateLines b.machine ++ [blank] ++
  memberLines b.machine ++
  [blank,
    code "void transitionToState(StateMachineStates newState);",
    code "const char* getStateName(StateMachineStates state);"] ++
  titled "Transition guards"
    (b.machine.guards.map fun g => noted ("bool " ++ g.method ++ "();") g.source) ++
  titled "Activities" (b.routines.map fun r => code (r.signature "" ++ ";")) ++
  titled "Mock framework diagnostics" (p.supportDeclarations.map code)

def classLines (p : Profile) (b : Bundle) : List Line :=
  [code ("class " ++ b.className ++ " :"), code ("  public " ++ b.baseName)] ++
  enclose (code "\x7b")
    ([blank, code "public:"] ++ indent (publicLines b) ++
      [blank, code "private:"] ++ indent (privateLines p b) ++ [blank])
    (code "\x7d;")

def lines (p : Profile) (b : Bundle) : List Line :=
  let included := b.machine.component.ident.toUpper ++ "_COMPONENT_IMPL_HPP"
  [code ("#ifndef " ++ included), code ("#define " ++ included), blank] ++
  titleLines b.machine ++
  [code ("#include \"" ++ b.machine.component.ident ++ "ComponentAc.hpp\""), blank] ++
  inNamespaces b.namespaces
    ([blank] ++ b.records.flatMap (fun r => recordLines r ++ [blank]) ++
      classLines p b ++ [blank]) ++
  [blank, noted "#endif" included]

end Header

end FlightGen
