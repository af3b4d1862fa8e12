import LoopNest.C.Kernel
import LoopNest.Text.LineMark

namespace LoopNest.C

def preludeLines : List String :=
  ["#include <math.h>",
    "#include <stdint.h>",
    "#include <stdio.h>",
    "#include <stdlib.h>",
    "#include <string.h>",
    "#include <time.h>",
    "",
    "#define MIN(a, b) ((a) < (b) ? (a) : (b))",
    "#define MAX(a, b) ((a) > (b) ? (a) : (b))",
    "",
    "static struct timespec ts_diff(struct timespec start, struct timespec end) \x7b",
    "  struct timespec delta;",
    "  if (end.tv_nsec < start.tv_nsec) \x7b",
    "    delta.tv_sec = end.tv_sec - start.tv_sec - 1;",
    "    delta.tv_nsec = 1000000000 + end.tv_nsec - start.tv_nsec;",
    "  \x7d else \x7b",
    "    delta.tv_sec = end.tv_sec - start.tv_sec;",
    "    delta.tv_nsec = end.tv_nsec - start.tv_nsec;",
    "  \x7d",
    "  return delta;",
    "\x7d",
    "",
    "static int load_input(const char *dir, const char *name, void *dst, size_t bytes) \x7b",
    "  char path[4096];",
    "  snprintf(path, sizeof(path), \"%s/%s.bin\", dir, name);",
    "  FILE *f = fopen(path, \"rb\");",
    "  if (!f) \x7b",
    "    perror(path);",
    "    return -1;",
    "  \x7d",
    "  size_t read = fread(dst, 1, bytes, f);",
    "  fclose(f);",
    "  return read == bytes ? 0 : -1;",
    "\x7d"]

def prelude : String := String.join (preludeLines.map (· ++ "\n"))

def comment (p : Program) (s : Schedule) : String :=
  Text.LineMark.writeAll "// " [p.name, "\n", s.text]

def bytesText (b : Buffer) : String := "sizeof(" ++ b.dtype.cType ++ ") * " ++ toString b.volume

def allocate (b : Buffer) : String :=
  let v := bufferVar b.name
  let bytes := bytesText b
  line 1 (b.dtype.cType ++ " *" ++ v ++ " = malloc(" ++ bytes ++ ");") ++
    line 1 ("if (!" ++ v ++ ") return 3;") ++
    (if b.kind = .input then
      line 1 ("if (load_input(dir, \"" ++ b.name ++ "\", " ++ v ++ ", " ++ bytes ++ ")) return 4;")
    else "")

def clearLine (b : Buffer) : String :=
  if b.kind = .input then ""
  else line 2 ("memset(" ++ bufferVar b.name ++ ", 0, " ++ bytesText b ++ ");")

def mainText (p : Program) : String :=
  let args := ", ".intercalate (p.buffers.map fun b => bufferVar b.name)
  "int main(int argc, char *argv[]) \x7b\n" ++
    line 1 "if (argc != 3) \x7b" ++
    line 2 "fprintf(stderr, \"usage: %s RUNS INPUT_DIR\\n\", argv[0]);" ++
    line 2 "return 2;" ++
    line 1 "\x7d" ++
    line 1 "const long runs = atol(argv[1]);" ++
    line 1 "const char *dir = argv[2];" ++
    String.join (p.buffers.map allocate) ++
    line 1 "struct timespec start, end;" ++
    line 1 "for (long run = 0; run < runs; ++run) \x7b" ++
    String.join (p.buffers.map clearLine) ++
    line 2 "clock_gettime(CLOCK_MONOTONIC, &start);" ++
    line 2 (functionName ++ "(" ++ args ++ ");") ++
    line 2 "clock_gettime(CLOCK_MONOTONIC, &end);" ++
    line 2 "struct timespec delta = ts_diff(start, end);" ++
    line 2 "printf(\"cpu: %llds %lldns\\n\", (long long)delta.tv_sec, (long long)delta.tv_nsec);" ++
    line 1 "\x7d" ++
    String.join (p.buffers.map fun b => line 1 ("free(" ++ bufferVar b.name ++ ");")) ++
    line 1 "return 0;" ++
    "\x7d\n"

def unitText (p : Program) (n : Nest) : Checked String := do
  let kernel ← kernelText p n.roots
  return comment p n.applied ++ prelude ++ "\n" ++ kernel ++ "\n" ++ mainText p

end LoopNest.C
