/-!
# The support library

Every generated program carries a small library in an object with two functions. `record` builds
an object from pairs of a name and a function: a property evaluates its function when it is first
read, keeps the value, and throws if it is read while it is being evaluated. `curry` wraps a
function so that a call with too few arguments gives a function of the arguments still missing.
-/

namespace LetScript.Script

/-- The lines of the object literal of the library. -/
def libraryLines : List String :=
  [
    "\x7b",
    "  record: function record(definitions) \x7b",
    "    var target = Object.create(null);",
    "    definitions.forEach(function (definition) \x7b",
    "      var name = definition[0];",
    "      var thunk = definition[1];",
    "      var state = 0;",
    "      var value;",
    "      Object.defineProperty(target, name, \x7b",
    "        enumerable: true,",
    "        configurable: true,",
    "        get: function () \x7b",
    "          if (state === 2) \x7b",
    "            return value;",
    "          \x7d",
    "          if (state === 1) \x7b",
    "            throw new Error(\"Cyclic definition of [\" + name + \"].\");",
    "          \x7d",
    "          state = 1;",
    "          try \x7b",
    "            value = thunk();",
    "          \x7d catch (e) \x7b",
    "            state = 0;",
    "            throw e;",
    "          \x7d",
    "          state = 2;",
    "          return value;",
    "        \x7d",
    "      \x7d);",
    "    \x7d);",
    "    return target;",
    "  \x7d,",
    "  curry: function curry(arity, f) \x7b",
    "    function partial(captured) \x7b",
    "      var applied = function () \x7b",
    "        var args = captured.concat(Array.prototype.slice.call(arguments));",
    "        if (args.length < arity) \x7b",
    "          return partial(args);",
    "        \x7d",
    "        return f.apply(null, args);",
    "      \x7d;",
    "      applied.arity = arity - captured.length;",
    "      applied.captured = captured;",
    "      return applied;",
    "    \x7d",
    "    return partial([]);",
    "  \x7d",
    "\x7d"
  ]

/-- The object literal of the library. -/
def librarySource : String := String.intercalate "\n" libraryLines

end LetScript.Script
