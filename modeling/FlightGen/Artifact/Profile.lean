import FlightGen.Machine.Basic

/-! Profiles: where emitted code sends its effects. Under the production profile they
go to the base class of the flight framework, under the mock profile to methods that
print them. -/

namespace FlightGen

inductive Profile where
  | production
  | mock
deriving Repr, DecidableEq

/-- A text that names no profile. -/
structure UnknownProfile where
  name : String

def UnknownProfile.message (e : UnknownProfile) : String :=
  "unknown binding profile '" ++ e.name ++ "'"

namespace Profile

def text : Profile → String
  | production => "production"
  | mock => "mock"

/-- Reads the name of a profile in any case. -/
def ofText (s : String) : Except UnknownProfile Profile :=
  match s.toLower with
  | "production" => .ok production
  | "mock" => .ok mock
  | other => .error ⟨other⟩

/-- The lines by which an implementation includes what the effects need. -/
def includes : Profile → List String
  | production => ["#include <Fw/Types/Assert.hpp>"]
  | mock => ["#include <cstdlib>", "#include <iostream>"]

/-- Declarations of the methods that print effects. -/
def supportDeclarations : Profile → List String
  | production => []
  | mock => [
      "void mockCmdResponse(FwOpcodeType opCode, U32 cmdSeq, Fw::CmdResponse response);",
      "void mockTlmWrite(const char* channel, const char* val);",
      "void mockLogEvent(const char* event, const char* arg1, const char* arg2);",
      "void mockAssert(NATIVE_UINT_TYPE value);"]

/-- Definitions of the methods that print effects. -/
def supportDefinitions (className : String) : Profile → List String
  | production => []
  | mock => [
      "void " ++ className ++
        "::mockCmdResponse(FwOpcodeType opCode, U32 cmdSeq, Fw::CmdResponse response)",
      "\x7b",
      "  std::cout << \"Mock CMD Response: opCode=0x\" << std::hex << opCode",
      "            << \" cmdSeq=\" << std::dec << cmdSeq << \" response=\" << response.e << std::endl;",
      "\x7d",
      "",
      "void " ++ className ++ "::mockTlmWrite(const char* channel, const char* val)",
      "\x7b",
      "  std::cout << \"Mock TLM: \" << channel << \" = \" << val << std::endl;",
      "\x7d",
      "",
      "void " ++ className ++
        "::mockLogEvent(const char* event, const char* arg1, const char* arg2)",
      "\x7b",
      "  std::cout << \"Mock EVENT: \" << event << \"(\" << arg1 << \", \" << arg2 << \")\" << std::endl;",
      "\x7d",
      "",
      "void " ++ className ++ "::mockAssert(NATIVE_UINT_TYPE value)",
      "\x7b",
      "  std::cout << \"Mock ASSERT: unreachable state \" << value << std::endl;",
      "  std::abort();",
      "\x7d"]

end Profile

/-- An effect of emitted code. Its operands are expressions of that code. -/
inductive Effect where
  | log (source target : String)
  | telemetry (state : String)
  | response (response : CommandResponse)
  | fatal (value : String)
deriving Repr, DecidableEq

/-- The call by which an effect takes place. -/
def Effect.call : Profile → Effect → String
  | .production, log source target =>
    "this->log_ACTIVITY_HI_" ++ transitionEvent ++ "(" ++ source ++ ", " ++ target ++ ")"
  | .production, telemetry state => "this->tlmWrite_" ++ telemetryChannel ++ "(" ++ state ++ ")"
  | .production, response r =>
    "this->cmdResponse_out(opCode, cmdSeq, Fw::CmdResponse::" ++ r.text ++ ")"
  | .production, fatal value => "FW_ASSERT(0, " ++ value ++ ")"
  | .mock, log source target =>
    "this->mockLogEvent(\"" ++ transitionEvent ++ "\", " ++ source ++ ", " ++ target ++ ")"
  | .mock, telemetry state => "this->mockTlmWrite(\"" ++ telemetryChannel ++ "\", " ++ state ++ ")"
  | .mock, response r =>
    "this->mockCmdResponse(opCode, cmdSeq, Fw::CmdResponse::" ++ r.text ++ ")"
  | .mock, fatal value => "this->mockAssert(" ++ value ++ ")"

end FlightGen
