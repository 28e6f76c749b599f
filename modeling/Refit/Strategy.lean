import Refit.Source.Rule
import Refit.Text.Blank

namespace Refit

structure Strategy where
  name : String
  /-- A cheap look at the text of a file; one that fails it is left alone. -/
  needsMigration : String → Bool
  rules : List Source.Rule
  /-- The signature of the unit that is handed over for reworking. -/
  anchor : String
  initialInstructions : (code : String) → String
  fixInstructions : (code diagnostic : String) → String

namespace Strategy

def holdsMarker (markers : List String) (text : String) : Bool :=
  markers.any fun marker => Text.occurs marker.toList text.toList

def webFluxRules : List Source.Rule :=
  [⟨"io.vertx.core.AbstractVerticle", "org.springframework.stereotype.Service"⟩,
   ⟨"io.vertx.core.Promise", "reactor.core.publisher.Mono"⟩,
   ⟨"extends AbstractVerticle", ""⟩,
   ⟨"import io.vertx.core.json.JsonObject;",
    "import com.fasterxml.jackson.databind.JsonNode;"⟩]

def webFluxInstructions : String :=
  "You are a Senior Java Architect. Refactor the following Legacy Vert.x code to " ++
  "Spring Boot 3 (WebFlux).\n\nRULES:\n" ++
  "1. Replace 'start(Promise)' with a '@PostConstruct public void init()' method.\n" ++
  "2. Replace Vert.x 'Future' with Project Reactor 'Mono' or 'Flux'.\n" ++
  "3. Do NOT use Thread.sleep(). Use Mono.delay() if strictly necessary.\n" ++
  "4. Return ONLY the Java method body. No markdown.\n"

def webFluxFix (code diagnostic : String) : String :=
  "The refactored code failed to compile.\nERROR: " ++ diagnostic ++ "\n\nCODE:\n" ++ code ++
  "\n\nTASK: Fix the code to satisfy the compiler. Return ONLY the fixed Java code.\n"

def webFlux : Strategy where
  name := "webflux"
  needsMigration := holdsMarker ["Verticle", "Future", "Promise"]
  rules := webFluxRules
  anchor := "public void start(Promise<Void> startFuture)"
  initialInstructions _ := webFluxInstructions
  fixInstructions := webFluxFix

def catalogue : List Strategy := [webFlux]

def find? (target : String) : Option Strategy :=
  catalogue.find? fun s => s.name == Text.lowered target

end Strategy

end Refit
