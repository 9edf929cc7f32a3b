/-!
# The code that brings a page to life

Every bundle starts with this program. It finds the markers in the page, evaluates the expressions that they
stand for, keeps the page up to date when states change, and hands events to their handlers.
-/

namespace PageCompiler.Emit

/-- The program, line by line. -/
def hydrationLines : List String := [
  "// Zenith hydration runtime. Embedded into every page bundle by the compiler.",
  "function __zenithRuntime(config) \x7b",
  "  const root = typeof window !== 'undefined' ? window : globalThis;",
  "  const data = root[config.runtimeData] || \x7b\x7d;",
  "  const scope = \x7b",
  "    state: \x7b\x7d,",
  "    props: data.props || \x7b\x7d,",
  "    loaderData: data.loaderData || \x7b\x7d,",
  "    stores: data.stores || \x7b\x7d,",
  "  \x7d;",
  "  const evaluators = new Map();",
  "  const registry = new Map();",
  "  const events = new Set();",
  "",
  "  // Instance registry: one record per instance id, removed explicitly.",
  "  function register(id, record) \x7b",
  "    registry.set(id, \x7b",
  "      state: record.state || [],",
  "      handlers: record.handlers || \x7b\x7d,",
  "    \x7d);",
  "  \x7d",
  "",
  "  function unregister(id) \x7b",
  "    const record = registry.get(id);",
  "    if (!record) return;",
  "    for (const key of record.state) delete scope.state[key];",
  "    registry.delete(id);",
  "  \x7d",
  "",
  "  function resolveHandler(name) \x7b",
  "    for (const record of registry.values()) \x7b",
  "      const handler = record.handlers[name];",
  "      if (typeof handler === 'function') return handler;",
  "    \x7d",
  "    return undefined;",
  "  \x7d",
  "",
  "  function expressions(list) \x7b",
  "    for (const [id, fn, params, loop] of list) \x7b",
  "      evaluators.set(id, \x7b fn, params, loop \x7d);",
  "    \x7d",
  "  \x7d",
  "",
  "  function evaluate(id, locals) \x7b",
  "    const entry = evaluators.get(id);",
  "    if (!entry) return undefined;",
  "    const args = entry.params.map((name) => scope[name]);",
  "    if (entry.loop) args.push(locals || \x7b\x7d);",
  "    try \x7b",
  "      return entry.fn(...args);",
  "    \x7d catch (error) \x7b",
  "      console.error('[Zenith] expression ' + id + ' failed:', error);",
  "      return undefined;",
  "    \x7d",
  "  \x7d",
  "",
  "  function localsOf(node) \x7b",
  "    for (let current = node; current; current = current.parentNode) \x7b",
  "      if (current.__zenLocals) return current.__zenLocals;",
  "    \x7d",
  "    return undefined;",
  "  \x7d",
  "",
  "  function toNode(value) \x7b",
  "    if (value === null || value === undefined || value === false) return null;",
  "    if (value instanceof Node) return value;",
  "    if (Array.isArray(value)) \x7b",
  "      const fragment = document.createDocumentFragment();",
  "      for (const item of value) \x7b",
  "        const node = toNode(item);",
  "        if (node) fragment.appendChild(node);",
  "      \x7d",
  "      return fragment;",
  "    \x7d",
  "    return document.createTextNode(String(value));",
  "  \x7d",
  "",
  "  function setAttribute(el, name, value) \x7b",
  "    if (name === 'value' || name === 'checked') \x7b",
  "      el[name] = value;",
  "      return;",
  "    \x7d",
  "    if (name === 'class' && value && typeof value === 'object') \x7b",
  "      value = Object.keys(value).filter((key) => value[key]).join(' ');",
  "    \x7d",
  "    if (name === 'style' && value && typeof value === 'object') \x7b",
  "      value = Object.entries(value).map(([key, v]) => key + ': ' + v).join('; ');",
  "    \x7d",
  "    if (value === false || value === null || value === undefined) \x7b",
  "      el.removeAttribute(name);",
  "    \x7d else \x7b",
  "      el.setAttribute(name, value === true ? '' : String(value));",
  "    \x7d",
  "  \x7d",
  "",
  "  function setContent(el, value) \x7b",
  "    if (value === null || value === undefined || value === false) \x7b",
  "      el.textContent = '';",
  "    \x7d else if (typeof value !== 'object') \x7b",
  "      el.textContent = String(value);",
  "    \x7d else \x7b",
  "      const node = toNode(value);",
  "      el.replaceChildren(...(node ? [node] : []));",
  "    \x7d",
  "  \x7d",
  "",
  "  // Element construction for markup lowered out of expressions.",
  "  function h(tag, attributes, children) \x7b",
  "    const el = document.createElement(tag);",
  "    for (const [name, value] of Object.entries(attributes || \x7b\x7d)) \x7b",
  "      if (name.startsWith('on') && typeof value === 'function') \x7b",
  "        el.addEventListener(name.slice(2).toLowerCase(), (event) => \x7b",
  "          value(event);",
  "          refresh();",
  "        \x7d);",
  "      \x7d else \x7b",
  "        setAttribute(el, name, value);",
  "      \x7d",
  "    \x7d",
  "    for (const child of children || []) \x7b",
  "      const node = toNode(child);",
  "      if (node) el.appendChild(node);",
  "    \x7d",
  "    return el;",
  "  \x7d",
  "",
  "  function fragment(children) \x7b",
  "    return toNode(children || []) || document.createDocumentFragment();",
  "  \x7d",
  "",
  "  function renderLoop(template) \x7b",
  "    const locals = localsOf(template);",
  "    const source = evaluate(template.dataset.zenLoop, locals);",
  "    const items = Array.isArray(source) ? source : source ? Array.from(source) : [];",
  "    const itemVar = template.dataset.zenItem;",
  "    const indexVar = template.dataset.zenIndex;",
  "    const keyId = template.dataset.zenKey;",
  "    const previous = template.__zenRendered || new Map();",
  "    const next = new Map();",
  "    let anchor = template;",
  "",
  "    items.forEach((item, index) => \x7b",
  "      const itemLocals = Object.assign(\x7b\x7d, locals, \x7b [itemVar]: item \x7d);",
  "      if (indexVar) itemLocals[indexVar] = index;",
  "      const key = keyId ? evaluate(keyId, itemLocals) : index;",
  "      let nodes = previous.get(key);",
  "      if (nodes) \x7b",
  "        previous.delete(key);",
  "      \x7d else \x7b",
  "        nodes = Array.from(template.content.cloneNode(true).childNodes);",
  "      \x7d",
  "      for (const node of nodes) \x7b",
  "        node.__zenLocals = itemLocals;",
  "        anchor.after(node);",
  "        anchor = node;",
  "        if (node.nodeType === 1) renderLoops(node);",
  "      \x7d",
  "      next.set(key, nodes);",
  "    \x7d);",
  "",
  "    for (const nodes of previous.values()) \x7b",
  "      for (const node of nodes) node.remove();",
  "    \x7d",
  "    template.__zenRendered = next;",
  "  \x7d",
  "",
  "  function renderLoops(container) \x7b",
  "    if (container.matches && container.matches('template[data-zen-loop]')) \x7b",
  "      renderLoop(container);",
  "    \x7d",
  "    for (const template of container.querySelectorAll('template[data-zen-loop]')) \x7b",
  "      renderLoop(template);",
  "    \x7d",
  "  \x7d",
  "",
  "  function update(container) \x7b",
  "    for (const el of container.querySelectorAll('*')) \x7b",
  "      const locals = localsOf(el);",
  "      for (const attr of Array.from(el.attributes)) \x7b",
  "        if (attr.name === 'data-zen-text') \x7b",
  "          setContent(el, evaluate(attr.value, locals));",
  "        \x7d else if (attr.name.startsWith('data-zen-attr-')) \x7b",
  "          setAttribute(el, attr.name.slice('data-zen-attr-'.length), evaluate(attr.value, locals));",
  "        \x7d else if (attr.name === 'data-zen-conditional') \x7b",
  "          const branch = String(!!evaluate(attr.value, locals));",
  "          for (const child of el.children) \x7b",
  "            if (child.dataset.zenBranch) \x7b",
  "              child.style.display = child.dataset.zenBranch === branch ? 'contents' : 'none';",
  "            \x7d",
  "          \x7d",
  "        \x7d else if (attr.name === 'data-zen-optional') \x7b",
  "          el.style.display = evaluate(attr.value, locals) ? 'contents' : 'none';",
  "        \x7d",
  "      \x7d",
  "    \x7d",
  "  \x7d",
  "",
  "  function refresh() \x7b",
  "    renderLoops(document);",
  "    update(document);",
  "  \x7d",
  "",
  "  // Event delegation: handler names resolve against the registry.",
  "  function listen(types) \x7b",
  "    for (const type of types) \x7b",
  "      if (events.has(type)) continue;",
  "      events.add(type);",
  "      const marker = 'data-zen-' + type;",
  "      document.addEventListener(type, (event) => \x7b",
  "        const target = event.target instanceof Element ? event.target.closest('[' + marker + ']') : null;",
  "        if (!target) return;",
  "        const handler = resolveHandler(target.getAttribute(marker));",
  "        if (!handler) return;",
  "        handler(event, localsOf(target) || \x7b\x7d);",
  "        refresh();",
  "      \x7d, true);",
  "    \x7d",
  "  \x7d",
  "",
  "  function start(types) \x7b",
  "    if (typeof document === 'undefined') return;",
  "    const run = () => \x7b",
  "      listen(types);",
  "      refresh();",
  "    \x7d;",
  "    if (document.readyState === 'loading') \x7b",
  "      document.addEventListener('DOMContentLoaded', run);",
  "    \x7d else \x7b",
  "      run();",
  "    \x7d",
  "  \x7d",
  "",
  "  return \x7b scope, registry, register, unregister, expressions, evaluate, refresh, start, h, fragment \x7d;",
  "\x7d"
]

def hydration : String :=
  String.join (hydrationLines.map (· ++ "\n"))

end PageCompiler.Emit
